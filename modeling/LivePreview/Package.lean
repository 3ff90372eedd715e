import LivePreview.Config
import LivePreview.Text.CharClass

/-!
# Packages

A specifier that names a package: `name`, `@scope/name`, either with `/subpath` behind it.
`Package.parse` takes it apart and `Package.specifier` writes it again.
-/
namespace LivePreview

structure Package where
  /-- With the scope, if there is one. -/
  name : String
  /-- A place within the package. -/
  subpath : Option String
deriving DecidableEq, Repr

namespace Package

def specifier (package : Package) : String :=
  match package.subpath with
  | some subpath => package.name ++ "/" ++ subpath
  | none => package.name

def isWordStart (c : Char) : Bool := c.isAlphanum || c == '~' || c == '-'

def isWordChar (c : Char) : Bool := isWordStart c || c == '.' || c == '_'

def isWord : List Char → Bool
  | [] => false
  | c :: rest => isWordStart c && rest.all isWordChar

def isScope : List Char → Bool
  | '@' :: rest => isWord rest
  | _ => false

/-- A piece of a subpath. -/
def isSegment (piece : String) : Bool :=
  piece ≠ "" && piece ≠ ".." && !piece.toList.any Text.isBlank

/-- The package of that name, with the pieces that follow the name as its subpath. -/
def ofPieces (name : String) (pieces : List String) : Option Package :=
  if pieces.isEmpty then some ⟨name, none⟩
  else if pieces.all isSegment then some ⟨name, some ("/".intercalate pieces)⟩
  else none

def parse (specifier : String) : Option Package :=
  match Path.splitNames specifier with
  | [] => none
  | first :: rest =>
    if isWord first.toList then ofPieces first rest
    else if isScope first.toList then
      match rest with
      | second :: rest =>
        if isWord second.toList then ofPieces (first ++ "/" ++ second) rest else none
      | [] => none
    else none

/-- Where a package is delivered from: its name with its version, if it has one, and the subpath. -/
def url (package : Package) (config : Config) : String :=
  let version :=
    match Table.get? package.name config.packageVersions with
    | some version => "@" ++ version
    | none => ""
  let subpath :=
    match package.subpath with
    | some subpath => "/" ++ subpath
    | none => ""
  config.packageCdn ++ "/" ++ package.name ++ version ++ subpath

end Package

end LivePreview
