/-!
# Sorting by a number

A stable insertion sort. `sortOn_perm` says that nothing is lost or added, `pairwise_sortOn` that
the keys do not decrease.
-/
namespace LivePreview

variable {α : Type}

/-- Puts an item in front of the first whose key is not smaller. -/
def insertOn (key : α → Nat) (a : α) : List α → List α
  | [] => [a]
  | b :: rest => if key a ≤ key b then a :: b :: rest else b :: insertOn key a rest

/-- The items in the order of their keys; those with equal keys keep their order. -/
def sortOn (key : α → Nat) (items : List α) : List α := items.foldr (insertOn key) []

theorem insertOn_perm (key : α → Nat) (a : α) (items : List α) :
    (insertOn key a items).Perm (a :: items) := by
  induction items with
  | nil => exact .refl _
  | cons b rest ih =>
    rw [insertOn]; split
    · exact .refl _
    · exact (ih.cons b).trans (.swap a b rest)

theorem sortOn_perm (key : α → Nat) (items : List α) : (sortOn key items).Perm items := by
  induction items with
  | nil => exact .refl _
  | cons a rest ih => exact (insertOn_perm key a _).trans (ih.cons a)

theorem pairwise_insertOn {key : α → Nat} (a : α) {items : List α}
    (sorted : items.Pairwise (key · ≤ key ·)) :
    (insertOn key a items).Pairwise (key · ≤ key ·) := by
  induction items with
  | nil => simp [insertOn]
  | cons b rest ih =>
    obtain ⟨first, others⟩ := List.pairwise_cons.1 sorted
    rw [insertOn]; split
    · rename_i le
      refine List.pairwise_cons.2 ⟨fun c mem => ?_, sorted⟩
      rcases List.mem_cons.1 mem with rfl | mem
      · exact le
      · exact Nat.le_trans le (first c mem)
    · rename_i lt
      refine List.pairwise_cons.2 ⟨fun c mem => ?_, ih others⟩
      rcases List.mem_cons.1 ((insertOn_perm key a rest).mem_iff.1 mem) with rfl | mem
      · omega
      · exact first c mem

theorem pairwise_sortOn (key : α → Nat) (items : List α) :
    (sortOn key items).Pairwise (key · ≤ key ·) := by
  induction items with
  | nil => exact .nil
  | cons a rest ih => exact pairwise_insertOn a ih

end LivePreview
