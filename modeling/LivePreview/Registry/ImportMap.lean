import LivePreview.Json.Quoted
import LivePreview.Registry.Handle
import LivePreview.Table

/-!
# Import maps

Where each specifier of a preview is loaded from.
-/
namespace LivePreview

inductive Resource where
  | module (handle : Handle)
  | external (url : String)
deriving DecidableEq, Repr

namespace Resource

def handle? : Resource → Option Handle
  | module handle => some handle
  | external _ => none

def text : Resource → String
  | module handle => handle.text
  | external url => url

end Resource

structure ImportMap where
  /-- A table by specifier. -/
  imports : List (String × Resource)
  entry : Handle
deriving DecidableEq, Repr

namespace ImportMap

/-- The handles in the order of their specifiers. -/
def handles (map : ImportMap) : List Handle := map.imports.filterMap (·.2.handle?)

/-- The map as an indented JSON document. -/
def json (map : ImportMap) : String :=
  let lines := map.imports.map fun (specifier, resource) =>
    "\n    " ++ Json.quote specifier ++ ": " ++ Json.quote resource.text
  let body := if lines.isEmpty then "" else ",".intercalate lines ++ "\n  "
  "\x7b\n  \"imports\": \x7b" ++ body ++ "\x7d\n\x7d"

end ImportMap

end LivePreview
