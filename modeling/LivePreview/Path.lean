/-!
# Paths

Absolute paths of the preview's file tree. A path is the list of its names; `Path.parse` reads the
written form and resolves `.` and `..`, so that what it answers is `Canonical`. `Path.child` alone
takes a name as it stands.
-/
namespace LivePreview

structure Path where
  /-- What stands between the separators of the written form. -/
  names : List String
deriving DecidableEq, Repr

/-- What the root directory, alone of all, does not allow. -/
inductive RootOperation where
  | deleted
  | renamed
deriving DecidableEq, Repr

inductive PathError where
  | notAbsolute (raw : String)
  | escapesRoot (raw : String)
  | rootOperation (operation : RootOperation)
  | intoOwnSubtree (source target : Path)
deriving DecidableEq, Repr

namespace Path

/-- The pieces of a text between separators. -/
def splitNames (text : String) : List String :=
  (text.toList.splitOn '/').map String.ofList

def root : Path := ⟨[]⟩

/-- The path whose written form has these pieces behind its first separator. -/
def ofNames (names : List String) : Path := if names = [""] then root else ⟨names⟩

/-- The written form. -/
def text (path : Path) : String := "/" ++ "/".intercalate path.names

def isRoot (path : Path) : Bool := path.names.isEmpty

/-- A name that a file or directory can have. -/
def IsName (name : String) : Prop :=
  name ≠ "" ∧ name ≠ "." ∧ name ≠ ".." ∧ '/' ∉ name.toList

instance (name : String) : Decidable (IsName name) := by unfold IsName; infer_instance

/-- Every piece is a name. -/
def Canonical (path : Path) : Prop := ∀ name ∈ path.names, IsName name

instance (path : Path) : Decidable path.Canonical := by unfold Canonical; infer_instance

/-- The names that are not empty. -/
def segments (path : Path) : List String := path.names.filter (· ≠ "")

/-- Walks from the directory with the given segments along a written tail; `none` when `..` leads
out of the root. -/
def walk (segments : List String) : List String → Option (List String)
  | [] => some segments
  | name :: rest =>
    if name = "" ∨ name = "." then walk segments rest
    else if name = ".." then
      if segments = [] then none else walk segments.dropLast rest
    else walk (segments ++ [name]) rest

/-- The written form without trailing separators. -/
def trimmedText (path : Path) : String :=
  String.ofList (path.text.toList.reverse.dropWhile (· = '/')).reverse

/-- Follows a relative tail. `..` above the root is an error. -/
def join (path : Path) (tail : String) : Except PathError Path :=
  match walk path.segments (splitNames tail) with
  | some segments => .ok ⟨segments⟩
  | none => .error (.escapesRoot (path.trimmedText ++ "/" ++ tail))

/-- Reads a written path. -/
def parse (raw : String) : Except PathError Path :=
  if raw.toList.head? = some '/' then
    root.join (String.ofList (raw.toList.dropWhile (· = '/')))
  else .error (.notAbsolute raw)

/-- The path with a separator and `name` behind it, whatever the name holds. -/
def child (path : Path) (name : String) : Path := ofNames (path.names ++ splitNames name)

def parent? (path : Path) : Option Path :=
  if path.isRoot then none else some ⟨path.segments.dropLast⟩

/-- The directory that holds the path, the root for the root. -/
def directory (path : Path) : Path := path.parent?.getD root

/-- The last segment, empty for the root. -/
def name (path : Path) : String := path.segments.getLast?.getD ""

/-- The path is `ancestor` or lies below it. -/
def startsWith (path ancestor : Path) : Bool := ancestor.names.isPrefixOf path.names

/-- Carries a path below `source` over to the same place below `target`. -/
def rebase? (path source target : Path) : Option Path :=
  if path.startsWith source then
    some ⟨target.segments ++ path.segments.drop source.segments.length⟩
  else none

/-- The last dot of the name and what follows it, unless that is the whole name. -/
def extension? (path : Path) : Option String :=
  let (reversed, rest) := path.name.toList.reverse.span (· ≠ '.')
  match rest with
  | _ :: _ :: _ => some (String.ofList ('.' :: reversed.reverse))
  | _ => none

/-- Paths are ordered as their written forms. -/
def compare (a b : Path) : Ordering := Ord.compare a.text b.text

end Path

namespace RootOperation

def word : RootOperation → String
  | deleted => "deleted"
  | renamed => "renamed"

end RootOperation

namespace PathError

def message : PathError → String
  | notAbsolute raw => "Path '" ++ raw ++ "' is not absolute"
  | escapesRoot raw => "Path '" ++ raw ++ "' escapes the root directory"
  | rootOperation operation => "The root directory cannot be " ++ operation.word
  | intoOwnSubtree source target =>
    "Cannot move '" ++ source.text ++ "' into its own subtree at '" ++ target.text ++ "'"

end PathError

end LivePreview
