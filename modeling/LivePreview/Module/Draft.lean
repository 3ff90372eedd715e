import LivePreview.Fingerprint
import LivePreview.Json.Quoted
import LivePreview.Module.Error
import LivePreview.Module.Kind
import LivePreview.Source.ImportSite

/-!
# Drafts

A draft is a file with its imports resolved and replaced, but not yet checked: everything about a
module that depends on the store. What is left to do depends on the draft alone, so its result can
be remembered under the draft's `MemoKey`.
-/
namespace LivePreview

open Source

/-- An import site and what its specifier refers to. -/
structure Link where
  site : ImportSite
  resolution : Resolution
deriving DecidableEq, Repr

namespace Link

def file? (link : Link) : Option Path :=
  match link.resolution with
  | .file path => some path
  | .package _ => none

def package? (link : Link) : Option Package :=
  match link.resolution with
  | .file _ => none
  | .package p => some p

/-- The stylesheet that the link leads to. -/
def stylesheet? (config : Config) (link : Link) : Option Path :=
  link.file?.filter fun path => ModuleKind.ofPath config path = .stylesheet

/-- The link leads to a stylesheet and is gone once the stylesheet is part of the page. -/
def isDropped (config : Config) (link : Link) : Bool :=
  (link.stylesheet? config).isSome && link.site.isRemovable

/-- A stylesheet that is still imported by the linked script. -/
def lazyStyle? (config : Config) (link : Link) : Option Path :=
  if link.isDropped config then none else link.stylesheet? config

/-- As many line breaks as the statement has, so that no other line moves. -/
def blankLines (source : String) (site : ImportSite) : String :=
  String.ofList (List.replicate ((Text.slice source.toList site.statement).count '\n') '\n')

/-- The change to the script: a dropped statement leaves blank lines, any other specifier is
replaced by one that means the same everywhere. -/
def edit (config : Config) (source : String) (link : Link) : Text.Edit :=
  if link.isDropped config then ⟨link.site.statement, blankLines source link.site⟩
  else ⟨link.site.span, link.resolution.specifier⟩

end Link

/-- What the result of checking a script depends on. -/
structure MemoKey where
  kind : ModuleKind
  content : Fingerprint
  imports : Fingerprint
deriving DecidableEq, Repr

/-- What is left to do for a module. -/
inductive DraftBody where
  /-- Nothing: the code or the error is known. -/
  | done (output : Except ModuleError String)
  /-- The linked script, which has all its specifiers replaced, has to be checked. -/
  | script (dialect : Dialect) (key : MemoKey) (linked : String)
deriving Repr

structure Draft where
  path : Path
  kind : ModuleKind
  /-- The files that it imports, in the order of their first import. -/
  dependencies : List Path := []
  packages : List Package := []
  /-- The stylesheets that it imports in a way that needs a module. -/
  lazyStyles : List Path := []
  body : DraftBody
deriving Repr

/-- The links of the sites that can be resolved. -/
def Config.links (config : Config) (store : Store) (importer : Path) (sites : List ImportSite) :
    List Link :=
  sites.filterMap fun site =>
    (config.resolve? store importer site.specifier).map (Link.mk site)

/-- The first site that cannot be resolved. -/
def Config.firstUnresolved? (config : Config) (store : Store) (importer : Path)
    (sites : List ImportSite) : Option ImportSite :=
  sites.find? fun site => (config.resolve? store importer site.specifier).isNone

/-- What each specifier of a script becomes. -/
def importTargets (links : List Link) : List (String × String) :=
  Table.ofList (links.map fun link => (link.site.specifier, link.resolution.specifier))

/-- A module with the text as its default export. -/
def defaultExport (expression : String) : String := "export default " ++ expression ++ ";\n"

/-- The module that stands for a stylesheet where code imports it. The page has the styles already,
so it only exports their text. -/
def stylesheetModule (text : String) : String := defaultExport (Json.quote text)

/-- The module of a JSON file. -/
def jsonModule (path : Path) (content : String) : Except ModuleError String :=
  match Json.firstFault? content with
  | some fault => .error (.malformed path (.json fault))
  | none => .ok (defaultExport (String.ofList (Text.trim content.toList)))

namespace Draft

/-- The draft of a script. An import that cannot be resolved leaves an error, and the others are
recorded nevertheless. -/
def ofScript (config : Config) (store : Store) (path : Path) (dialect : Dialect)
    (content : String) : Draft :=
  let sites := importSites content dialect
  let links := config.links store path sites
  let kind := .script dialect
  { path
    kind
    dependencies := (links.filterMap Link.file?).eraseDups
    packages := (links.filterMap Link.package?).eraseDups
    lazyStyles := (links.filterMap (Link.lazyStyle? config)).eraseDups
    body :=
      match config.firstUnresolved? store path sites with
      | some site =>
        .done (.error (.unresolved path ⟨site.specifier, path⟩ (site.location content)))
      | none =>
        .script dialect
          { kind
            content := .ofContent content
            imports := .ofImports (importTargets links) }
          (Text.applyEdits content (links.map (Link.edit config content))) }

/-- The draft of the file at a path. -/
def ofPath (config : Config) (store : Store) (path : Path) : Draft :=
  let kind := ModuleKind.ofPath config path
  match store.read path.text with
  | .error _ => { path, kind, body := .done (.error (.missing path)) }
  | .ok content =>
    match kind with
    | .script dialect => ofScript config store path dialect content
    | .json => { path, kind, body := .done (jsonModule path content) }
    | .stylesheet | .asset => { path, kind, body := .done (.ok content) }

end Draft

end LivePreview
