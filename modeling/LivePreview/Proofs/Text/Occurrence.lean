import LivePreview.Text.Search

/-!
# Occurrences of a text

What a search from left to right finds: `splitFirst?` the first occurrence, `occurrences` all of
them, each behind the end of the one before. An occurrence that overlaps the one before is not
counted.
-/
namespace LivePreview.Text

/-- `pattern` stands between `before` and `behind`, and no sooner. -/
structure FirstOccurrence (pattern text before behind : List Char) : Prop where
  text_eq : text = before ++ pattern ++ behind
  no_sooner : ∀ i < before.length, ¬ pattern <+: text.drop i

/-- A search that goes on behind `before` and `pattern` finds nothing more. -/
structure SoleOccurrence (pattern text before behind : List Char) : Prop
    extends FirstOccurrence pattern text before behind where
  no_later : ¬ pattern <:+: behind

theorem firstOccurrence_cons_iff {pattern rest before behind : List Char} {c first : Char} :
    FirstOccurrence pattern (c :: rest) (first :: before) behind ↔
      ¬ pattern <+: c :: rest ∧ first = c ∧ FirstOccurrence pattern rest before behind := by
  constructor
  · rintro ⟨he, hs⟩
    obtain ⟨rfl, ht⟩ := List.cons.inj he
    refine ⟨hs 0 (Nat.succ_pos _), rfl, ht, fun i hi => ?_⟩
    exact hs (i + 1) (Nat.succ_lt_succ hi)
  · rintro ⟨hp, rfl, ht, hs⟩
    refine ⟨congrArg (first :: ·) ht, fun i hi => ?_⟩
    cases i with
    | zero => exact hp
    | succ i => exact hs i (Nat.lt_of_succ_lt_succ hi)

theorem firstOccurrence_nil_iff {pattern text behind : List Char} :
    FirstOccurrence pattern text [] behind ↔ text = pattern ++ behind :=
  ⟨fun h => h.text_eq, fun h => ⟨h, fun _ hi => absurd hi (Nat.not_lt_zero _)⟩⟩

theorem splitFirst?_eq_some_iff {pattern text before behind : List Char} :
    splitFirst? pattern text = some (before, behind) ↔
      FirstOccurrence pattern text before behind := by
  induction text generalizing before behind with
  | nil =>
    rw [splitFirst?]
    constructor
    · intro h
      split at h
      · rename_i hp
        obtain ⟨rfl, rfl⟩ := Prod.mk.inj (Option.some.inj h)
        exact firstOccurrence_nil_iff.mpr (by simpa using List.isEmpty_iff.mp hp)
      · cases h
    · intro h
      have he := h.text_eq
      simp only [List.nil_eq, List.append_eq_nil_iff] at he
      obtain ⟨⟨rfl, rfl⟩, rfl⟩ := he
      rfl
  | cons c rest ih =>
    rw [splitFirst?]
    by_cases hp : pattern <+: c :: rest
    · rw [if_pos (List.isPrefixOf_iff_prefix.mpr hp)]
      obtain ⟨others, ho⟩ := hp
      rw [← ho, List.drop_left]
      constructor
      · intro h
        obtain ⟨rfl, rfl⟩ := Prod.mk.inj (Option.some.inj h)
        exact firstOccurrence_nil_iff.mpr rfl
      · intro h
        cases before with
        | nil => rw [List.append_cancel_left (firstOccurrence_nil_iff.mp h)]
        | cons first before =>
          exact absurd (List.prefix_append _ _) (h.no_sooner 0 (Nat.succ_pos _))
    · rw [if_neg fun h => hp (List.isPrefixOf_iff_prefix.mp h)]
      cases before with
      | nil =>
        constructor
        · intro h
          obtain ⟨found, _, he⟩ := Option.map_eq_some_iff.mp h
          cases he
        · exact fun h => absurd ⟨behind, (firstOccurrence_nil_iff.mp h).symm⟩ hp
      | cons first before =>
        rw [firstOccurrence_cons_iff, ← ih, Option.map_eq_some_iff]
        constructor
        · rintro ⟨found, hf, he⟩
          cases he
          exact ⟨hp, rfl, hf⟩
        · rintro ⟨_, rfl, hf⟩
          exact ⟨_, hf, rfl⟩

theorem splitFirst?_eq_none_iff {pattern text : List Char} :
    splitFirst? pattern text = none ↔ ¬ pattern <:+: text := by
  induction text with
  | nil =>
    rw [splitFirst?, List.infix_nil]
    cases pattern <;> simp
  | cons c rest ih =>
    rw [splitFirst?, List.infix_cons_iff]
    split
    · rename_i hp
      simp [List.isPrefixOf_iff_prefix.mp hp]
    · rename_i hp
      have hp' : ¬ pattern <+: c :: rest := fun h => hp (List.isPrefixOf_iff_prefix.mpr h)
      rw [Option.map_eq_none_iff, ih]
      simp [hp']

theorem occurrencesFrom_eq_drop (pattern : List Char) (skip : Nat) (text : List Char) :
    occurrencesFrom pattern skip text = occurrencesFrom pattern 0 (text.drop skip) := by
  induction text generalizing skip with
  | nil => simp [occurrencesFrom]
  | cons c rest ih =>
    cases skip with
    | zero => rfl
    | succ skip => exact ih skip

/-- The count goes on behind the first occurrence. -/
theorem occurrencesFrom_zero {pattern : List Char} (hne : pattern ≠ []) (text : List Char) :
    occurrencesFrom pattern 0 text =
      match splitFirst? pattern text with
      | none => 0
      | some (_, behind) => occurrencesFrom pattern 0 behind + 1 := by
  induction text with
  | nil => cases pattern <;> simp_all [occurrencesFrom, splitFirst?]
  | cons c rest ih =>
    rw [occurrencesFrom, splitFirst?]
    split
    · obtain ⟨first, others, rfl⟩ := List.exists_cons_of_ne_nil hne
      simp only [List.length_cons, Nat.add_sub_cancel, List.drop_succ_cons]
      rw [occurrencesFrom_eq_drop]
    · rw [ih]
      cases splitFirst? pattern rest <;> rfl

theorem occurrences_eq_one_iff {pattern text : String} (hne : pattern ≠ "") :
    occurrences pattern text = 1 ↔
      ∃ before behind, SoleOccurrence pattern.toList text.toList before behind := by
  have hne' : pattern.toList ≠ [] := fun h => hne (String.toList_eq_nil_iff.mp h)
  rw [occurrences, occurrencesFrom_zero hne']
  cases hs : splitFirst? pattern.toList text.toList with
  | none =>
    refine ⟨fun h => (nomatch h), ?_⟩
    rintro ⟨before, behind, h⟩
    exact absurd (hs.symm.trans (splitFirst?_eq_some_iff.mpr h.toFirstOccurrence)) (by simp)
  | some found =>
    obtain ⟨before, behind⟩ := found
    have hfirst := splitFirst?_eq_some_iff.mp hs
    dsimp only
    rw [occurrencesFrom_zero hne']
    cases hl : splitFirst? pattern.toList behind with
    | none =>
      exact ⟨fun _ => ⟨before, behind, hfirst, splitFirst?_eq_none_iff.mp hl⟩, fun _ => rfl⟩
    | some later =>
      refine ⟨fun h => by simp at h, ?_⟩
      rintro ⟨before', behind', h⟩
      have hsame := splitFirst?_eq_some_iff.mpr h.toFirstOccurrence
      rw [hs] at hsame
      obtain ⟨rfl, rfl⟩ := Prod.mk.inj (Option.some.inj hsame)
      rw [splitFirst?_eq_none_iff.mpr h.no_later] at hl
      cases hl

/-! ### All occurrences -/

/-- The pattern stands in the text behind `i` characters. -/
def OccursAt (pattern text : List Char) (i : Nat) : Prop :=
  ∃ before behind, text = before ++ pattern ++ behind ∧ before.length = i

theorem occursAt_iff {pattern text : List Char} {i : Nat} :
    OccursAt pattern text i ↔ i ≤ text.length ∧ pattern <+: text.drop i := by
  constructor
  · rintro ⟨before, behind, rfl, rfl⟩
    rw [List.append_assoc, List.drop_left]
    exact ⟨by simp, List.prefix_append _ _⟩
  · rintro ⟨hi, behind, hb⟩
    refine ⟨text.take i, behind, ?_, List.length_take_of_le hi⟩
    rw [List.append_assoc, hb, List.take_append_drop]

/-- No occurrence counts beside the sole one that does not overlap it. -/
theorem soleOccurrence_iff {pattern text before behind : List Char} (hne : pattern ≠ []) :
    SoleOccurrence pattern text before behind ↔
      text = before ++ pattern ++ behind ∧ ∀ i, OccursAt pattern text i →
        i = before.length ∨ before.length < i ∧ i < before.length + pattern.length := by
  have hpos : 0 < pattern.length := List.length_pos_iff.mpr hne
  constructor
  · rintro ⟨⟨rfl, hsooner⟩, hlater⟩
    refine ⟨rfl, fun i hi => ?_⟩
    obtain ⟨_, hprefix⟩ := occursAt_iff.mp hi
    have hle : before.length ≤ i := Nat.le_of_not_lt fun hlt => hsooner i hlt hprefix
    have hlt : i < before.length + pattern.length := by
      refine Nat.lt_of_not_le fun hge => hlater ?_
      obtain ⟨n, rfl⟩ := Nat.exists_eq_add_of_le hge
      rw [← List.length_append, ← List.drop_drop, List.drop_left] at hprefix
      exact hprefix.isInfix.trans (List.drop_suffix n behind).isInfix
    rcases Nat.eq_or_lt_of_le hle with he | hbehind
    · exact .inl he.symm
    · exact .inr ⟨hbehind, hlt⟩
  · rintro ⟨rfl, honly⟩
    refine ⟨⟨rfl, fun i hi hprefix => ?_⟩, ?_⟩
    · rcases honly i (occursAt_iff.mpr ⟨by simp; omega, hprefix⟩) with h | h <;> omega
    · rintro ⟨front, back, rfl⟩
      have hlater := honly (before ++ pattern ++ front).length ⟨_, back, by simp, rfl⟩
      simp only [List.length_append] at hlater
      omega

/-- Neither no occurrence nor two that are apart count as one. -/
theorem occurrences_ne_one {pattern text : String} (hne : pattern ≠ "")
    (h : (∀ i, ¬ OccursAt pattern.toList text.toList i) ∨
      ∃ i j, OccursAt pattern.toList text.toList i ∧ OccursAt pattern.toList text.toList j ∧
        i + pattern.length ≤ j) : occurrences pattern text ≠ 1 := by
  intro hone
  obtain ⟨before, behind, hsole⟩ := (occurrences_eq_one_iff hne).mp hone
  have hne' : pattern.toList ≠ [] := fun he => hne (String.toList_eq_nil_iff.mp he)
  obtain ⟨htext, honly⟩ := (soleOccurrence_iff hne').mp hsole
  rcases h with hnone | ⟨i, j, hi, hj, hapart⟩
  · exact hnone _ ⟨before, behind, htext, rfl⟩
  · have hpos := List.length_pos_iff.mpr hne'
    have hi := honly i hi
    have hj := honly j hj
    rw [String.length_toList] at hpos hi hj
    omega

/-- The replacement takes the place of the first occurrence. -/
theorem replaceFirst_of_firstOccurrence {pattern text : String} {before behind : List Char}
    (replacement : String) (h : FirstOccurrence pattern.toList text.toList before behind) :
    replaceFirst pattern replacement text =
      String.ofList (before ++ replacement.toList ++ behind) := by
  rw [replaceFirst, splitFirst?_eq_some_iff.mpr h]

end LivePreview.Text
