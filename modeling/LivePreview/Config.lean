import LivePreview.Path
import LivePreview.Table
import LivePreview.Yaml.Node

/-!
# Configuration

How specifiers are resolved and where a preview starts. A YAML document overrides the defaults field
by field, in the order in which it gives them; the first field at fault is the error.
-/
namespace LivePreview

structure Config where
  /-- What a specifier that counts from the root directory begins with. -/
  rootAlias : String := "@/"
  /-- The extensions of scripts. Of two files that differ in the extension alone, the one whose
  extension stands earlier is found. -/
  extensions : List String := [".jsx", ".tsx", ".js", ".ts"]
  /-- The file that stands for its directory, without its extension. -/
  indexBasename : String := "index"
  /-- Where a preview starts: the first of these that is a file. -/
  entryPoints : List Path :=
    [⟨["App.jsx"]⟩, ⟨["App.tsx"]⟩, ⟨["index.jsx"]⟩, ⟨["index.tsx"]⟩, ⟨["src", "App.jsx"]⟩,
      ⟨["src", "App.tsx"]⟩]
  /-- The address under which packages are delivered. -/
  packageCdn : String := "https://esm.sh"
  /-- The version of each package that has one, by name. -/
  packageVersions : List (String × String) := []
deriving DecidableEq, Repr

/-- What is wrong with a field. -/
inductive FieldDefect where
  | notString
  | notStringList
  | rootAlias
  | extensions
  | indexBasename
  | entryPoint (cause : PathError)
  | noEntryPoint
  | packageVersions
deriving DecidableEq, Repr

namespace FieldDefect

def reason : FieldDefect → String
  | notString => "must be a string"
  | notStringList => "must be a list of strings"
  | rootAlias => "must be a non-empty prefix ending in '/' such as '@/'"
  | extensions => "must be a non-empty list of extensions starting with '.'"
  | indexBasename => "must be a plain file name"
  | entryPoint cause => cause.message
  | noEntryPoint => "must list at least one entry file"
  | packageVersions => "must be a mapping of package name to version"

end FieldDefect

inductive ConfigError where
  | unreadable (file : String)
  | notText (file : String)
  | notYaml (fault : Yaml.Fault)
  | topLevelNotMapping
  | invalidField (field : String) (defect : FieldDefect)
deriving DecidableEq, Repr

namespace ConfigError

def message : ConfigError → String
  | unreadable file => "Failed to read the config file: " ++ file
  | notText file => "Config file " ++ file ++ " is not valid UTF-8"
  | notYaml _ => "Failed to parse the config file"
  | topLevelNotMapping => "Top level of config should be a map"
  | invalidField field defect => "Config field '" ++ field ++ "' " ++ defect.reason

end ConfigError

namespace Config

def isScriptExtension (config : Config) (extension : String) : Bool :=
  config.extensions.contains extension

/-! ### What a field may be -/

/-- A prefix that ends in a separator and cannot be taken for an absolute path. -/
def IsRootAlias (text : String) : Prop :=
  text.toList.getLast? = some '/' ∧ text.toList.head? ≠ some '/'

instance (text : String) : Decidable (IsRootAlias text) := by unfold IsRootAlias; infer_instance

/-- A dot and something behind it. -/
def IsExtension (extension : String) : Prop :=
  extension.toList.head? = some '.' ∧ 1 < extension.length

instance (extension : String) : Decidable (IsExtension extension) := by
  unfold IsExtension; infer_instance

def IsIndexBasename (name : String) : Prop := name ≠ "" ∧ '/' ∉ name.toList

instance (name : String) : Decidable (IsIndexBasename name) := by
  unfold IsIndexBasename; infer_instance

/-- What every configuration that was read from a document satisfies. -/
structure Valid (config : Config) : Prop where
  rootAlias : IsRootAlias config.rootAlias
  extensions_ne_nil : config.extensions ≠ []
  isExtension : ∀ extension ∈ config.extensions, IsExtension extension
  indexBasename : IsIndexBasename config.indexBasename
  entryPoints_ne_nil : config.entryPoints ≠ []
  canonical : ∀ path ∈ config.entryPoints, path.Canonical

/-! ### Reading -/

def stringOf (node : Yaml.Node) : Except FieldDefect String :=
  match node.text? with
  | some text => .ok text
  | none => .error .notString

def stringsOf (node : Yaml.Node) : Except FieldDefect (List String) :=
  match node.items? with
  | some items => items.mapM stringOf
  | none => .error .notStringList

/-- A text without the separators at its end. -/
def trimSeparators (text : String) : String :=
  String.ofList (text.toList.reverse.dropWhile (· = '/')).reverse

/-- Adds a version to those already known. A name that is no text and a version that is neither text
nor number are passed over. -/
def addVersion (versions : List (String × String)) (entry : Yaml.Node × Yaml.Node) :
    List (String × String) :=
  match entry.1.text?, entry.2.versionText? with
  | some package, some version => Table.insert package version versions
  | _, _ => versions

def addVersions (versions : List (String × String)) (entries : List (Yaml.Node × Yaml.Node)) :
    List (String × String) :=
  entries.foldl addVersion versions

/-- Sets the field that has the name. Unknown names change nothing. -/
def setField (config : Config) (name : String) (value : Yaml.Node) : Except FieldDefect Config := do
  match name with
  | "root_alias" =>
    let rootAlias ← stringOf value
    if IsRootAlias rootAlias then .ok { config with rootAlias } else .error .rootAlias
  | "extensions" =>
    let extensions ← stringsOf value
    if extensions ≠ [] ∧ ∀ extension ∈ extensions, IsExtension extension then
      .ok { config with extensions }
    else .error .extensions
  | "index_basename" =>
    let indexBasename ← stringOf value
    if IsIndexBasename indexBasename then .ok { config with indexBasename }
    else .error .indexBasename
  | "entry_points" =>
    let entryPoints ← (← stringsOf value).mapM fun raw => (Path.parse raw).mapError .entryPoint
    if entryPoints = [] then .error .noEntryPoint else .ok { config with entryPoints }
  | "package_cdn" =>
    let packageCdn ← stringOf value
    .ok { config with packageCdn := trimSeparators packageCdn }
  | "package_versions" =>
    match value.entries? with
    | some entries =>
      .ok { config with packageVersions := addVersions config.packageVersions entries }
    | none => .error .packageVersions
  | _ => .ok config

/-- Sets fields one after the other. Keys that are no text are passed over. -/
def setFields (config : Config) : List (Yaml.Node × Yaml.Node) → Except ConfigError Config
  | [] => .ok config
  | (key, value) :: rest => do
    match key.text? with
    | some name =>
      let config ← (config.setField name value).mapError (.invalidField name)
      config.setFields rest
    | none => config.setFields rest

/-- The configuration that a document describes. -/
def ofDocument (document : Yaml.Node) : Except ConfigError Config :=
  match document.entries? with
  | some entries => ({} : Config).setFields entries
  | none => .error .topLevelNotMapping

/-- Reads the first document of a stream; without one the defaults stay. -/
def parse (text : String) : Except ConfigError Config := do
  match ← (Yaml.documents text).mapError .notYaml with
  | [] => .ok {}
  | document :: _ => ofDocument document

end Config

end LivePreview
