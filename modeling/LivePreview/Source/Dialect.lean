/-!
# Dialects

The script dialects that a source may be written in, told apart by file extension.
-/
namespace LivePreview.Source

inductive Dialect where
  | jsx
  | tsx
  | javaScript
  | typeScript
deriving DecidableEq, Repr

namespace Dialect

/-- Every extension that names no other dialect is read as plain script. -/
def ofExtension (extension : String) : Dialect :=
  if extension = ".jsx" then .jsx
  else if extension = ".tsx" then .tsx
  else if extension ∈ [".ts", ".mts", ".cts"] then .typeScript
  else .javaScript

/-- Plain typed script reads `<T>value` as a type assertion, never as markup. -/
def allowsMarkup (dialect : Dialect) : Bool := dialect != .typeScript

end Dialect

end LivePreview.Source
