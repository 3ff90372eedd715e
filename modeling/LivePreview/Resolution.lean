import LivePreview.Package
import LivePreview.Store

/-!
# Resolution

What an import specifier refers to. A specifier with the root alias counts from the root, one that
begins with `/` is a path, one that begins with `.` or `..` counts from the importer's directory,
and any other names a package. A path stands for the first of its `candidates` that is a file.
-/
namespace LivePreview

inductive Resolution where
  | file (path : Path)
  | package (package : Package)
deriving DecidableEq, Repr

/-- The specifier that means the same wherever it is imported. -/
def Resolution.specifier : Resolution → String
  | .file path => path.text
  | .package p => p.specifier

structure UnresolvedImport where
  specifier : String
  importer : Path
deriving DecidableEq, Repr

def UnresolvedImport.message (error : UnresolvedImport) : String :=
  "Cannot resolve '" ++ error.specifier ++ "' imported from '" ++ error.importer.text ++ "'"

/-- Where an import leads, before it is known what exists. -/
inductive ImportTarget where
  /-- A file at or near a path; `none` when there is no such path. -/
  | path (base : Option Path)
  | package (package : Option Package)
deriving DecidableEq, Repr

/-- A specifier that counts from the importer's directory. -/
def isRelative (specifier : String) : Bool :=
  specifier = "." || specifier = ".." || "./".toList.isPrefixOf specifier.toList ||
    "../".toList.isPrefixOf specifier.toList

namespace Config

/-- The specifier without the root alias. -/
def dropRootAlias? (config : Config) (specifier : String) : Option String :=
  if config.rootAlias.toList.isPrefixOf specifier.toList then
    some (String.ofList (specifier.toList.drop config.rootAlias.length))
  else none

def target (config : Config) (importer : Path) (specifier : String) : ImportTarget :=
  match config.dropRootAlias? specifier with
  | some tail => .path (Path.root.join tail).toOption
  | none =>
    if specifier.toList.head? = some '/' then .path (Path.parse specifier).toOption
    else if isRelative specifier then .path (importer.directory.join specifier).toOption
    else .package (Package.parse specifier)

/-- The paths that `base` may stand for, the preferred ones first: itself, itself with an extension,
and the index file of the directory that it names. -/
def candidates (config : Config) (base : Path) : List Path :=
  let withExtension :=
    if base.isRoot then []
    else config.extensions.filterMap fun extension =>
      (Path.parse (base.text ++ extension)).toOption
  let indexFiles :=
    config.extensions.map fun extension => base.child (config.indexBasename ++ extension)
  base :: withExtension ++ indexFiles

/-- The file that a path stands for. -/
def firstFile? (config : Config) (store : Store) (base : Path) : Option Path :=
  (config.candidates base).find? store.isFile

def resolve? (config : Config) (store : Store) (importer : Path) (specifier : String) :
    Option Resolution :=
  match config.target importer specifier with
  | .path base => (base.bind (config.firstFile? store)).map .file
  | .package package => package.map .package

/-- What a specifier means in the importer. -/
def resolve (config : Config) (store : Store) (importer : Path) (specifier : String) :
    Except UnresolvedImport Resolution :=
  match config.resolve? store importer specifier with
  | some resolution => .ok resolution
  | none => .error ⟨specifier, importer⟩

end Config

end LivePreview
