import LivePreview.Proofs.Store.FlatTree

/-!
# Replacing a text in a file

A text is replaced when it occurs in the file once. The search goes on behind what it finds, so a
second occurrence that overlaps the first does not make an edit ambiguous; any other does.
-/
namespace LivePreview

open Text

variable {store : Store} {path : CanonicalPath} {raw old new content : String}

/-- What a replacement makes of the flat tree, told by all occurrences of the text. -/
theorem FlatTree.replaceInFile_iff {tree tree' : FlatTree} :
    FlatTree.Step tree (.replaceInFile raw old new) tree' ↔
      ∃ path content before behind, Path.parse raw = .ok path.path ∧
        tree path = some (.file content) ∧ old ≠ "" ∧
        content.toList = before ++ old.toList ++ behind ∧
        (∀ i, OccursAt old.toList content.toList i →
          i = before.length ∨ before.length < i ∧ i < before.length + old.length) ∧
        tree' = tree.write path (String.ofList (before ++ new.toList ++ behind)) := by
  have hold : old ≠ "" → old.toList ≠ [] := fun hne he => hne (String.toList_eq_nil_iff.mp he)
  rw [← String.length_toList]
  constructor
  · intro hstep
    cases hstep with
    | replaceInFile hp hf hne hsole =>
      obtain ⟨htext, honly⟩ := (soleOccurrence_iff (hold hne)).mp hsole
      exact ⟨_, _, _, _, hp, hf, hne, htext, honly, rfl⟩
  · rintro ⟨path, content, before, behind, hp, hf, hne, htext, honly, rfl⟩
    exact .replaceInFile hp hf hne ((soleOccurrence_iff (hold hne)).mpr ⟨htext, honly⟩)

namespace Store

/-- A text that a file does not hold once is refused for what the file holds. -/
theorem replaceInFile_eq_error (hp : Path.parse raw = .ok path.path)
    (hf : store.flat path = some (.file content)) (h : old = "" ∨ occurrences old content ≠ 1) :
    ∃ mismatch,
      store.replaceInFile raw old new = .error (.editMismatch path.path mismatch) store := by
  have hparse := parse_eq_ok_iff.mpr hp
  have hcontent := contentAt_eq_ok_iff.mpr (flat_eq_file_iff.mp hf)
  rw [replaceInFile, bind_of_ok (ask_of_ok hparse), bind_of_ok (ask_of_ok hcontent)]
  by_cases hne : old = ""
  · have hempty : ensure (old ≠ "") (.editMismatch path.path .emptyPattern) = .error _ :=
      if_neg fun h => h hne
    exact ⟨.emptyPattern, bind_of_error (ask_of_error hempty)⟩
  · rw [bind_of_ok (ask_of_ok (ensure_eq_ok_iff.mpr hne))]
    match hn : occurrences old content with
    | 0 => exact ⟨.absent, rfl⟩
    | 1 => exact absurd hn (h.resolve_left hne)
    | n + 2 => exact ⟨.ambiguous (n + 2), rfl⟩

/-- A text is replaced exactly when it is not empty and occurs in the file, at one position but for
those that overlap it from behind. A text that is empty, that does not occur or that occurs at two
positions apart from each other is refused, and the store stays as it was. -/
theorem Reachable.replaceInFile_exact (h : store.Reachable) (raw old new : String) :
    (∀ tree, (∃ store', store.replaceInFile raw old new = .ok () store' ∧ store'.flat = tree) ↔
      ∃ path content before behind, Path.parse raw = .ok path.path ∧
        store.flat path = some (.file content) ∧ old ≠ "" ∧
        content.toList = before ++ old.toList ++ behind ∧
        (∀ i, OccursAt old.toList content.toList i →
          i = before.length ∨ before.length < i ∧ i < before.length + old.length) ∧
        tree = store.flat.write path (String.ofList (before ++ new.toList ++ behind))) ∧
    ∀ path content, Path.parse raw = .ok path.path → store.flat path = some (.file content) →
      (old = "" ∨ (∀ i, ¬ OccursAt old.toList content.toList i) ∨
        ∃ i j, OccursAt old.toList content.toList i ∧ OccursAt old.toList content.toList j ∧
          i + old.length ≤ j) →
      ∃ mismatch,
        store.replaceInFile raw old new = .error (.editMismatch path.path mismatch) store ∧
          store.attempt (.replaceInFile raw old new) = store := by
  refine ⟨fun tree => ?_, fun path content hp hf hrefused => ?_⟩
  · rw [← FlatTree.replaceInFile_iff]
    constructor
    · rintro ⟨store', hreplace, rfl⟩
      exact (step_of_replaceInFile hreplace).flat h.wellFormed
    · intro hstep
      obtain ⟨store', hstep, hflat⟩ := hstep.exists_step h.wellFormed
      exact ⟨store', hstep.apply_eq, hflat⟩
  · have hcount : old = "" ∨ occurrences old content ≠ 1 := by
      by_cases hne : old = ""
      · exact .inl hne
      · exact .inr (occurrences_ne_one hne (hrefused.resolve_left hne))
    obtain ⟨mismatch, herror⟩ := replaceInFile_eq_error hp hf hcount
    exact ⟨mismatch, herror, attempt_of_error herror⟩

/-- The text occurs once, and its replacement holds it twice. -/
theorem replaceInFile_exact_of_growth :
    let store := Store.empty.attempt (.createFile "/a" "f(x)")
    ∃ store', store.replaceInFile "/a" "x" "x, x" = .ok () store' ∧
      store'.flat = store.flat.write ⟨⟨["a"]⟩, by decide⟩ "f(x, x)" := by
  intro store
  refine ((Reachable.replaceInFile_exact (.attempted _ .empty) "/a" "x" "x, x").1 _).mpr
    ⟨⟨⟨["a"]⟩, by decide⟩, "f(x)", "f(".toList, ")".toList, rfl, by decide +kernel,
      by decide, by decide, fun i hi => ?_, rfl⟩
  have hbound : ∀ i ≤ 4, "x".toList <+: "f(x)".toList.drop i → i = 2 := by decide
  obtain ⟨hle, hprefix⟩ := occursAt_iff.mp hi
  exact .inl (hbound i hle hprefix)

/-- A text that occurs at two positions is replaced where the two overlap. -/
theorem replaceInFile_overlapping :
    let store := Store.empty.attempt (.createFile "/a" "aaa")
    store.Reachable ∧ OccursAt "aa".toList "aaa".toList 0 ∧ OccursAt "aa".toList "aaa".toList 1 ∧
      ∃ store', store.replaceInFile "/a" "aa" "b" = .ok () store' ∧ store'.read "/a" = .ok "ba" :=
  ⟨.attempted _ .empty, ⟨[], ['a'], rfl, rfl⟩, ⟨['a'], [], rfl, rfl⟩, _, rfl, rfl⟩

end Store

end LivePreview
