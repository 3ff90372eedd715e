import LivePreview.Json.Check
import LivePreview.Resolution
import LivePreview.Source.CodeMap

/-!
# Module errors

Why a file cannot be made into a module, and how that is reported.
-/
namespace LivePreview

/-- A fault in the text of a file. -/
inductive SyntaxFault where
  | script (fault : Source.Fault)
  | json (fault : Json.Fault)
deriving DecidableEq, Repr

namespace SyntaxFault

def message : SyntaxFault → String
  | script fault => fault.defect.message
  | json fault => "Invalid JSON: " ++ fault.message

def location : SyntaxFault → Option Text.Location
  | script fault => fault.location
  | json fault => some fault.location

end SyntaxFault

inductive ModuleError where
  | malformed (path : Path) (fault : SyntaxFault)
  | unresolved (path : Path) (cause : UnresolvedImport) (location : Text.Location)
  | missing (path : Path)
deriving DecidableEq, Repr

namespace ModuleError

def path : ModuleError → Path
  | malformed path _ => path
  | unresolved path _ _ => path
  | missing path => path

/-- What is wrong, without the path. -/
def detail : ModuleError → String
  | malformed _ fault => fault.message
  | unresolved _ cause _ => cause.message
  | missing _ => "file not found"

def location : ModuleError → Option Text.Location
  | malformed _ fault => fault.location
  | unresolved _ _ location => some location
  | missing _ => none

def message (error : ModuleError) : String := error.path.text ++ ": " ++ error.detail

/-- The message with the location, if there is one, behind the path. -/
def report (error : ModuleError) : String :=
  match error.location with
  | some location => error.path.text ++ ":" ++ location.render ++ ": " ++ error.detail
  | none => error.message

end ModuleError

end LivePreview
