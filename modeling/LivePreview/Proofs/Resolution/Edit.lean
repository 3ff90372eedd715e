import LivePreview.Proofs.Resolution.Candidate

/-!
# Imports and edits

What becomes of an import when the tree is edited. All that counts is where there are files: an edit
that leaves them where they are changes nothing, a new file is met by the imports that it comes
first for, and the imports of one that is deleted pass to the candidates behind it.
-/
namespace LivePreview

/-! ### The first of a list -/

namespace Config

variable {config : Config} {store store' : Store} {importer path : Path} {specifier : String}

/-! ### What an import becomes -/

section Edited

variable {raw content : String} (hi : IsIndexBasename config.indexBasename)
  (hx : ∀ extension ∈ config.extensions, '/' ∉ extension.toList) (hw : store.WellFormed)

include hi hx hw

end Edited

end Config

end LivePreview
