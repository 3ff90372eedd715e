import LivePreview.Yaml.Node

/-!
# Nodes as they are read

A mapping that is read holds no text twice among its keys, so what is looked up in it is the one value
that stands there, wherever it stands and whatever stands beside it. An integer has 64 bits.
-/
namespace LivePreview.Yaml

/-- The integers among the scalars are those of 64 bits. -/
def Scalar.Fits (value : Scalar) : Prop :=
  ∀ number, value = .integer number →
    Int64.minValue.toInt ≤ number ∧ number ≤ Int64.maxValue.toInt

namespace Node

variable {entries : List (Node × Node)} {name : String} {value : Node}

/-- No text is a key twice. -/
def DistinctKeys (entries : List (Node × Node)) : Prop :=
  (entries.filterMap fun entry => entry.1.text?).Nodup

instance (entries : List (Node × Node)) : Decidable (DistinctKeys entries) := by
  unfold DistinctKeys; infer_instance

theorem distinctKeys_singleton (entry : Node × Node) : DistinctKeys [entry] := by
  unfold DistinctKeys
  cases h : entry.1.text? <;> simp [h]

/-- What a reader can deliver. -/
inductive Loaded : Node → Prop
  | scalar {value : Scalar} (h : value.Fits) : Loaded (.scalar value)
  | sequence {items : List Node} (h : ∀ item ∈ items, Loaded item) : Loaded (.sequence items)
  | mapping {entries : List (Node × Node)} (hd : DistinctKeys entries)
      (hk : ∀ entry ∈ entries, Loaded entry.1) (hv : ∀ entry ∈ entries, Loaded entry.2) :
      Loaded (.mapping entries)
  | tagged {node : Node} (h : Loaded node) : Loaded (.tagged node)
  | invalid : Loaded .invalid

theorem Loaded.distinctKeys (h : Loaded (.mapping entries)) : DistinctKeys entries := by
  cases h with
  | mapping hd hk hv => exact hd

theorem text?_eq_some_iff {node : Node} {text : String} :
    node.text? = some text ↔ node = .scalar (.text text) := by
  constructor
  · intro h
    unfold text? at h
    split at h
    · rw [Option.some.inj h]
    · cases h
  · rintro rfl
    rfl

theorem entries?_eq_some_iff {node : Node} :
    node.entries? = some entries ↔ node = .mapping entries := by
  constructor
  · intro h
    unfold entries? at h
    split at h
    · rw [Option.some.inj h]
    · cases h
  · rintro rfl
    rfl

/-! ### Looking up -/

theorem field?_cons (key : Node) :
    field? name ((key, value) :: entries) =
      if key.text? = some name then some value else field? name entries := by
  unfold field?
  rw [List.find?_cons]
  by_cases h : key.text? = some name
  · simp [h]
  · simp [h]

theorem DistinctKeys.of_cons {entry : Node × Node} (h : DistinctKeys (entry :: entries)) :
    DistinctKeys entries ∧
      ∀ text, entry.1.text? = some text → ∀ other ∈ entries, other.1.text? ≠ some text := by
  unfold DistinctKeys at h ⊢
  rw [List.filterMap_cons] at h
  split at h
  · rename_i hnone
    exact ⟨h, fun text ht => by rw [hnone] at ht; cases ht⟩
  · rename_i text hsome
    obtain ⟨hnot, hrest⟩ := List.nodup_cons.mp h
    refine ⟨hrest, fun text' ht other hm ho => hnot ?_⟩
    rw [hsome] at ht
    obtain rfl := Option.some.inj ht
    exact List.mem_filterMap.mpr ⟨other, hm, ho⟩

/-- A look-up finds the value at the key, wherever the two stand. -/
theorem field?_eq_some_iff (hd : DistinctKeys entries) :
    field? name entries = some value ↔ (.scalar (.text name), value) ∈ entries := by
  induction entries with
  | nil => exact ⟨fun h => (nomatch h), fun h => (nomatch h)⟩
  | cons entry rest ih =>
    obtain ⟨key, stored⟩ := entry
    obtain ⟨hrest, hother⟩ := hd.of_cons
    rw [field?_cons, List.mem_cons, Prod.mk.injEq]
    by_cases hk : key.text? = some name
    · rw [if_pos hk, Option.some.injEq]
      obtain rfl := text?_eq_some_iff.mp hk
      constructor
      · rintro rfl
        exact Or.inl ⟨rfl, rfl⟩
      · rintro (⟨-, rfl⟩ | hm)
        · rfl
        · exact absurd rfl (hother name rfl _ hm)
    · rw [if_neg hk, ih hrest]
      constructor
      · exact Or.inr
      · rintro (⟨rfl, -⟩ | hm)
        · exact absurd rfl hk
        · exact hm

theorem field?_eq_none_iff (hd : DistinctKeys entries) :
    field? name entries = none ↔ ∀ value, (.scalar (.text name), value) ∉ entries := by
  rw [Option.eq_none_iff_forall_ne_some]
  exact forall_congr' fun value => not_congr (field?_eq_some_iff hd)

end Node

end LivePreview.Yaml
