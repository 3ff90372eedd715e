import LivePreview.Text.Search

/-!
# Pieces of a text

A text split at a character and joined again is the same text, and no piece holds the character. The
pieces are the only ones of that kind, so a text stands for the list of its pieces and vice versa.
-/
namespace LivePreview.Text

/-- No piece holds the character at which the list was split. -/
theorem not_mem_of_mem_splitOn {separator : Char} {cs piece : List Char}
    (h : piece ∈ cs.splitOn separator) : separator ∉ piece := by
  induction cs generalizing piece with
  | nil => rw [List.splitOn_nil] at h; simp_all
  | cons c rest ih =>
    rw [List.splitOn_cons_eq_if_modifyHead] at h
    split at h
    · rcases List.mem_cons.mp h with rfl | hm
      · exact List.not_mem_nil
      · exact ih hm
    · rename_i hc
      cases hp : rest.splitOn separator with
      | nil => exact absurd hp (List.splitOn_ne_nil _ _)
      | cons first others =>
        rw [hp, List.modifyHead_cons] at h
        rcases List.mem_cons.mp h with rfl | hm
        · have hfirst := ih (hp ▸ List.mem_cons_self)
          have hne : separator ≠ c := fun he => hc (by rw [he]; exact beq_self_eq_true c)
          exact List.not_mem_cons_of_ne_of_not_mem hne hfirst
        · exact ih (hp ▸ List.mem_cons_of_mem _ hm)

/-- What stands in front of the first separator, and what behind it, is one part each. -/
theorem append_separator_inj {α : Type} {separator : α} {front front' back back' : List α}
    (hf : separator ∉ front) (hf' : separator ∉ front')
    (h : front ++ separator :: back = front' ++ separator :: back') :
    front = front' ∧ back = back' := by
  rcases List.append_eq_append_iff.mp h with ⟨middle, rfl, hback⟩ | ⟨middle, rfl, hback⟩
  · cases middle with
    | nil => exact ⟨(List.append_nil front).symm, (List.cons.inj hback).2⟩
    | cons first rest =>
      obtain rfl := (List.cons.inj hback).1
      exact absurd (List.mem_append_right front List.mem_cons_self) hf'
  · cases middle with
    | nil => exact ⟨List.append_nil front', (List.cons.inj hback).2.symm⟩
    | cons first rest =>
      obtain rfl := (List.cons.inj hback).1
      exact absurd (List.mem_append_right front' List.mem_cons_self) hf

/-- The pieces of a text between the occurrences of a character. -/
def pieces (separator : Char) (text : String) : List String :=
  (text.toList.splitOn separator).map String.ofList

theorem not_mem_of_mem_pieces {separator : Char} {text piece : String}
    (h : piece ∈ pieces separator text) : separator ∉ piece.toList := by
  obtain ⟨cs, hm, rfl⟩ := List.mem_map.mp h
  rw [String.toList_ofList]
  exact not_mem_of_mem_splitOn hm

theorem pieces_ne_nil (separator : Char) (text : String) : pieces separator text ≠ [] := by
  simp [pieces]

theorem pieces_of_not_mem {separator : Char} {text : String} (h : separator ∉ text.toList) :
    pieces separator text = [text] := by
  simp [pieces, List.splitOn_eq_singleton h]

theorem intercalate_pieces (separator : Char) (text : String) :
    (String.singleton separator).intercalate (pieces separator text) = text := by
  apply String.toList_inj.mp
  rw [String.toList_intercalate, pieces, List.map_map]
  have hid : String.toList ∘ String.ofList = id := funext fun cs => String.toList_ofList
  rw [hid, List.map_id, String.toList_singleton, List.intercalate_splitOn]

theorem pieces_intercalate {separator : Char} {parts : List String} (hne : parts ≠ [])
    (h : ∀ part ∈ parts, separator ∉ part.toList) :
    pieces separator ((String.singleton separator).intercalate parts) = parts := by
  have hs : ((parts.map String.toList).map String.ofList) = parts := by
    rw [List.map_map]
    have hid : String.ofList ∘ String.toList = id := funext fun s => String.ofList_toList
    rw [hid, List.map_id]
  rw [pieces, String.toList_intercalate, String.toList_singleton, List.splitOn_intercalate, hs]
  · intro cs hm
    obtain ⟨part, hp, rfl⟩ := List.mem_map.mp hm
    exact h part hp
  · simpa using hne

/-- The pieces of a text are the only parts without the character that join to it. -/
theorem eq_pieces_iff {separator : Char} {text : String} {parts : List String} :
    parts = pieces separator text ↔
      parts ≠ [] ∧ (∀ part ∈ parts, separator ∉ part.toList) ∧
        (String.singleton separator).intercalate parts = text := by
  constructor
  · rintro rfl
    exact ⟨pieces_ne_nil _ _, fun _ => not_mem_of_mem_pieces, intercalate_pieces _ _⟩
  · rintro ⟨hne, hfree, rfl⟩
    exact (pieces_intercalate hne hfree).symm

theorem splitLines_eq_pieces (text : String) : splitLines text = pieces '\n' text := rfl

end LivePreview.Text
