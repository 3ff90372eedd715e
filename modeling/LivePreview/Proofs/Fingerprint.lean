import LivePreview.Proofs.Table.Order
import LivePreview.Proofs.Text.Pieces
import LivePreview.Proofs.Text.Utf8

/-!
# What a fingerprint of imports is made from

The bytes that stand for a table of imports are read back in one way only: no text holds the two
bytes that mark the ends of specifier and target. So tables have the same bytes when they have the
same imports and not otherwise. Nothing is said of the hash of the bytes, which is shorter.
-/
namespace LivePreview.Fingerprint

theorem not_mem_utf8 {mark : UInt8} (h : 0xF8 ≤ mark) (text : String) : mark ∉ utf8 text :=
  fun hm => UInt8.not_lt.mpr h (Text.lt_of_mem_utf8 hm)

theorem importBytes_cons (specifier target : String) (rest : List (String × String)) :
    importBytes ((specifier, target) :: rest) =
      utf8 specifier ++ 0xFF :: (utf8 target ++ 0xFE :: importBytes rest) := by
  show utf8 specifier ++ [0xFF] ++ utf8 target ++ [0xFE] ++ importBytes rest = _
  simp only [List.append_assoc, List.cons_append, List.nil_append]

theorem importBytes_cons_ne_nil (first : String × String) (rest : List (String × String)) :
    importBytes (first :: rest) ≠ [] := by
  rw [importBytes_cons]
  exact List.append_ne_nil_of_right_ne_nil _ (List.cons_ne_nil _ _)

/-- The imports are read back one by one. -/
theorem importBytes_injective : Function.Injective importBytes := by
  intro targets
  induction targets with
  | nil =>
    rintro (_ | ⟨first, rest⟩) h
    · rfl
    · exact absurd h.symm (importBytes_cons_ne_nil first rest)
  | cons first rest ih =>
    obtain ⟨specifier, target⟩ := first
    rintro (_ | ⟨⟨specifier', target'⟩, rest'⟩) h
    · exact absurd h (importBytes_cons_ne_nil _ rest)
    · rw [importBytes_cons, importBytes_cons] at h
      have hff : ∀ text, 0xFF ∉ utf8 text := not_mem_utf8 (by decide)
      have hfe : ∀ text, 0xFE ∉ utf8 text := not_mem_utf8 (by decide)
      obtain ⟨hspecifier, h⟩ := Text.append_separator_inj (hff specifier) (hff specifier') h
      obtain ⟨htarget, h⟩ := Text.append_separator_inj (hfe target) (hfe target') h
      rw [Text.utf8_injective hspecifier, Text.utf8_injective htarget, ih h]

/-- Two tables of imports are given the same bytes exactly when they give each specifier the same
target. -/
theorem importBytes_eq_iff {targets others : List (String × String)} (h : Table.Sorted targets)
    (h' : Table.Sorted others) :
    importBytes targets = importBytes others ↔
      ∀ specifier, Table.get? specifier targets = Table.get? specifier others := by
  constructor
  · intro he specifier
    rw [importBytes_injective he]
  · intro hget
    refine congrArg importBytes (Table.eq_of_mem_iff h h' fun entry => ?_)
    rw [← Table.get?_eq_some_iff h, ← Table.get?_eq_some_iff h', hget]

/-- What moves from a specifier to its target, or from one import to the next, changes the bytes. -/
theorem importBytes_ne_of_moved_text :
    let targets := [("./a", "/b.js"), ("./é", "/c.js")]
    let others := [("./a", "/b.js./é"), ("./c", "/c.js")]
    Table.Sorted targets ∧ Table.Sorted others ∧ importBytes targets ≠ importBytes others := by
  intro targets others
  have h : Table.Sorted targets := by decide
  have h' : Table.Sorted others := by decide
  refine ⟨h, h', fun he => ?_⟩
  exact absurd ((importBytes_eq_iff h h').mp he "./a") (by decide)

end LivePreview.Fingerprint
