import LivePreview.Table

/-!
# Ordered tables

A table is `Sorted` when its keys increase. Every operation keeps that, and then the look-up is the
same as membership, so two tables with equal look-ups are equal.
-/
namespace LivePreview.Table

variable {κ ν μ : Type}

section Lookup

variable [DecidableEq κ]

theorem mem_of_get?_eq_some {key : κ} {value : ν} {table : List (κ × ν)}
    (h : get? key table = some value) : (key, value) ∈ table := by
  induction table with
  | nil => cases h
  | cons entry rest ih =>
    obtain ⟨k, v⟩ := entry
    rw [get?] at h
    split at h
    · obtain rfl := Option.some.inj h
      subst k
      exact List.mem_cons_self
    · exact List.mem_cons_of_mem _ (ih h)

theorem mem_of_mem_erase {key : κ} {entry : κ × ν} {table : List (κ × ν)}
    (h : entry ∈ erase key table) : entry ∈ table :=
  (List.mem_filter.mp h).1

theorem get?_append (key : κ) (front back : List (κ × ν)) :
    get? key (front ++ back) = (get? key front).or (get? key back) := by
  induction front with
  | nil => rfl
  | cons entry rest ih =>
    obtain ⟨k, v⟩ := entry
    rw [List.cons_append, get?, get?]
    split
    · rfl
    · exact ih

theorem get?_filter (p : κ → Bool) (key : κ) (table : List (κ × ν)) :
    get? key (table.filter fun entry => p entry.1) = if p key then get? key table else none := by
  induction table with
  | nil => exact (ite_self _).symm
  | cons entry rest ih =>
    obtain ⟨k, v⟩ := entry
    by_cases hk : key = k
    · subst hk
      by_cases hp : p key
      · simp [hp, get?]
      · rw [List.filter_cons, if_neg hp, ih, if_neg hp, if_neg hp]
    · by_cases hp : p k
      · rw [List.filter_cons, if_pos hp, get?, if_neg hk, get?, if_neg hk, ih]
      · rw [List.filter_cons, if_neg hp, get?, if_neg hk, ih]

/-- What is done to the values alone shows in the look-up and nowhere else. -/
theorem get?_map (f : κ → ν → μ) (key : κ) (table : List (κ × ν)) :
    get? key (table.map fun entry => (entry.1, f entry.1 entry.2)) =
      (get? key table).map (f key) := by
  induction table with
  | nil => rfl
  | cons entry rest ih =>
    obtain ⟨k, v⟩ := entry
    simp only [List.map_cons, get?]
    split
    · subst k; rfl
    · exact ih

/-- Where no key stands twice, every entry is found at its key. -/
theorem get?_of_mem_of_nodup {key : κ} {value : ν} {table : List (κ × ν)}
    (h : (table.map Prod.fst).Nodup) (hm : (key, value) ∈ table) :
    get? key table = some value := by
  induction table with
  | nil => cases hm
  | cons first rest ih =>
    obtain ⟨k, v⟩ := first
    obtain ⟨hfirst, hrest⟩ := List.nodup_cons.mp h
    rw [get?]
    rcases List.mem_cons.mp hm with he | hm
    · obtain ⟨rfl, rfl⟩ := Prod.mk.inj he
      simp
    · have hkey : key ∈ rest.map Prod.fst := List.mem_map_of_mem hm
      have hne : key ≠ k := fun he => hfirst (he ▸ hkey)
      rw [if_neg hne, ih hrest hm]

theorem contains_iff {key : κ} {table : List (κ × ν)} :
    contains key table = true ↔ key ∈ table.map Prod.fst := by
  induction table with
  | nil => simp [contains, get?]
  | cons entry rest ih =>
    obtain ⟨k, v⟩ := entry
    rw [contains, get?]
    by_cases hk : key = k
    · simp [hk]
    · rw [if_neg hk, List.map_cons, List.mem_cons]
      exact ih.trans (or_iff_right hk).symm

theorem contains_eq_false_iff {key : κ} {table : List (κ × ν)} :
    contains key table = false ↔ key ∉ table.map Prod.fst := by
  rw [← contains_iff, Bool.not_eq_true]

end Lookup

/-- The keys increase. -/
def Sorted [LT κ] (table : List (κ × ν)) : Prop := table.Pairwise fun a b => a.1 < b.1

instance [LT κ] [DecidableLT κ] (table : List (κ × ν)) : Decidable (Sorted table) := by
  unfold Sorted; infer_instance

theorem sorted_erase [DecidableEq κ] [LT κ] (key : κ) {table : List (κ × ν)} (h : Sorted table) :
    Sorted (erase key table) :=
  List.Pairwise.filter _ h

theorem sorted_map [LT κ] (f : κ → ν → μ) {table : List (κ × ν)} (h : Sorted table) :
    Sorted (table.map fun entry => (entry.1, f entry.1 entry.2)) :=
  List.pairwise_map.mpr h

/-- In an ordered table every entry is found at its key. -/
theorem get?_eq_some_iff [DecidableEq κ] [LT κ] [LE κ] [Std.IsPreorder κ] [Std.LawfulOrderLT κ]
    {key : κ} {value : ν} {table : List (κ × ν)} (h : Sorted table) :
    get? key table = some value ↔ (key, value) ∈ table := by
  refine ⟨mem_of_get?_eq_some, fun hm => ?_⟩
  induction table with
  | nil => cases hm
  | cons first rest ih =>
    obtain ⟨k, v⟩ := first
    obtain ⟨hfirst, hrest⟩ := List.pairwise_cons.mp h
    rw [get?]
    rcases List.mem_cons.mp hm with he | hm
    · obtain ⟨rfl, rfl⟩ := Prod.mk.inj he
      simp
    · have hlt : k < key := hfirst _ hm
      have hne : key ≠ k := fun he => Std.lt_irrefl (he ▸ hlt)
      rw [if_neg hne, ih hrest hm]

/-- No entry stands twice in an ordered table. -/
theorem Sorted.nodup [LT κ] [LE κ] [Std.IsPreorder κ] [Std.LawfulOrderLT κ] {table : List (κ × ν)}
    (h : Sorted table) : table.Nodup := by
  refine List.Pairwise.imp ?_ h
  rintro a _ hlt rfl
  exact Std.lt_irrefl hlt

/-- In ordered tables the entries tell their order. -/
theorem eq_of_mem_iff [LT κ] [LE κ] [Std.IsPreorder κ] [Std.LawfulOrderLT κ]
    {table other : List (κ × ν)} (h : Sorted table) (h' : Sorted other)
    (hm : ∀ entry, entry ∈ table ↔ entry ∈ other) : table = other := by
  have hperm := (List.perm_ext_iff_of_nodup h.nodup h'.nodup).mpr hm
  exact hperm.eq_of_pairwise (fun a b _ _ hab hba => absurd (Std.lt_trans hab hba) Std.lt_irrefl) h h'

section Insert

variable [DecidableEq κ] [LT κ] [DecidableLT κ]

theorem mem_insert {key : κ} {value : ν} {entry : κ × ν} {table : List (κ × ν)}
    (h : entry ∈ insert key value table) : entry = (key, value) ∨ entry ∈ table := by
  induction table with
  | nil => exact Or.inl (List.mem_singleton.mp h)
  | cons first rest ih =>
    obtain ⟨k, v⟩ := first
    rw [insert] at h
    split at h
    · rcases List.mem_cons.mp h with he | hm
      · exact Or.inl he
      · exact Or.inr (List.mem_cons_of_mem _ hm)
    · split at h
      · exact List.mem_cons.mp h
      · rcases List.mem_cons.mp h with he | hm
        · exact Or.inr (he ▸ List.mem_cons_self)
        · exact (ih hm).imp_right (List.mem_cons_of_mem _)

/-- A key that is not in the table is put somewhere between the others. -/
theorem perm_insert {key : κ} {value : ν} {table : List (κ × ν)} (h : key ∉ table.map Prod.fst) :
    (insert key value table).Perm ((key, value) :: table) := by
  induction table with
  | nil => exact .refl _
  | cons first rest ih =>
    obtain ⟨k, v⟩ := first
    obtain ⟨hne, hrest⟩ := not_or.mp (mt List.mem_cons.mpr h)
    rw [insert, if_neg hne]
    split
    · exact .refl _
    · exact ((ih hrest).cons _).trans (.swap _ _ _)

/-- The place of an entry depends on the keys alone. -/
theorem map_insert (f : ν → μ) (key : κ) (value : ν) (table : List (κ × ν)) :
    (insert key value table).map (fun entry => (entry.1, f entry.2)) =
      insert key (f value) (table.map fun entry => (entry.1, f entry.2)) := by
  induction table with
  | nil => rfl
  | cons first rest ih =>
    obtain ⟨k, v⟩ := first
    simp only [List.map_cons, insert]
    split
    · rfl
    · split
      · rfl
      · rw [List.map_cons, ih]

theorem map_ofList (f : ν → μ) (pairs : List (κ × ν)) :
    (ofList pairs).map (fun entry => (entry.1, f entry.2)) =
      ofList (pairs.map fun pair => (pair.1, f pair.2)) := by
  have h : ∀ (pairs table : List (κ × ν)),
      (pairs.foldl (fun table pair => insert pair.1 pair.2 table) table).map
          (fun entry => (entry.1, f entry.2)) =
        (pairs.map fun pair => (pair.1, f pair.2)).foldl
          (fun table pair => insert pair.1 pair.2 table)
          (table.map fun entry => (entry.1, f entry.2)) := by
    intro pairs
    induction pairs with
    | nil => exact fun _ => rfl
    | cons pair rest ih =>
      intro table
      rw [List.foldl_cons, ih, map_insert]
      rfl
  exact h pairs []

/-- A key that all pairs give the same value has that value in the table. -/
theorem get?_ofList {key : κ} {value : ν} {pairs : List (κ × ν)} (hm : (key, value) ∈ pairs)
    (hv : ∀ pair ∈ pairs, pair.1 = key → pair.2 = value) :
    get? key (ofList pairs) = some value := by
  have h : ∀ (pairs table : List (κ × ν)), (∀ pair ∈ pairs, pair.1 = key → pair.2 = value) →
      get? key table = some value ∨ (key, value) ∈ pairs →
      get? key (pairs.foldl (fun table pair => insert pair.1 pair.2 table) table) =
        some value := by
    intro pairs
    induction pairs with
    | nil => exact fun table _ h => h.resolve_right List.not_mem_nil
    | cons pair rest ih =>
      intro table hv h
      obtain ⟨hfirst, hrest⟩ := List.forall_mem_cons.mp hv
      refine ih _ hrest ?_
      dsimp only
      by_cases hk : pair.1 = key
      · left
        rw [hk, hfirst hk, get?_insert_self]
      · rw [get?_insert_of_ne fun he => hk he.symm]
        refine h.imp_right fun hm => ?_
        exact (List.mem_cons.mp hm).resolve_left fun he => hk (congrArg Prod.fst he.symm)
  exact h pairs [] hv (Or.inr hm)

theorem mem_of_mem_ofList {entry : κ × ν} {pairs : List (κ × ν)} (h : entry ∈ ofList pairs) :
    entry ∈ pairs := by
  have hgeneral : ∀ (pairs table : List (κ × ν)),
      entry ∈ pairs.foldl (fun table pair => insert pair.1 pair.2 table) table →
        entry ∈ table ∨ entry ∈ pairs := by
    intro pairs
    induction pairs with
    | nil => exact fun _ h => Or.inl h
    | cons pair rest ih =>
      intro table h
      rcases ih _ h with h | h
      · rcases mem_insert h with rfl | h
        · exact Or.inr List.mem_cons_self
        · exact Or.inl h
      · exact Or.inr (List.mem_cons_of_mem _ h)
  exact (hgeneral pairs [] h).resolve_left List.not_mem_nil

/-- When equal keys come with equal values, the table holds all pairs. -/
theorem get?_ofList_iff {pairs : List (κ × ν)}
    (hf : ∀ a ∈ pairs, ∀ b ∈ pairs, a.1 = b.1 → a.2 = b.2) {key : κ} {value : ν} :
    get? key (ofList pairs) = some value ↔ (key, value) ∈ pairs :=
  ⟨fun h => mem_of_mem_ofList (mem_of_get?_eq_some h),
    fun h => get?_ofList h fun pair hp he => hf pair hp _ h he⟩

theorem mem_ofList_iff {pairs : List (κ × ν)}
    (hf : ∀ a ∈ pairs, ∀ b ∈ pairs, a.1 = b.1 → a.2 = b.2) {entry : κ × ν} :
    entry ∈ ofList pairs ↔ entry ∈ pairs :=
  ⟨mem_of_mem_ofList, fun h => mem_of_get?_eq_some ((get?_ofList_iff hf).mpr h)⟩

variable [LE κ] [Std.IsLinearOrder κ] [Std.LawfulOrderLT κ]

theorem sorted_insert (key : κ) (value : ν) {table : List (κ × ν)} (h : Sorted table) :
    Sorted (insert key value table) := by
  induction table with
  | nil => exact List.pairwise_singleton _ _
  | cons first rest ih =>
    obtain ⟨k, v⟩ := first
    obtain ⟨hfirst, hrest⟩ := List.pairwise_cons.mp h
    rw [insert]
    split
    · subst k
      exact List.pairwise_cons.mpr ⟨hfirst, hrest⟩
    · rename_i hne
      split
      · rename_i hlt
        refine List.pairwise_cons.mpr ⟨fun entry hm => ?_, h⟩
        rcases List.mem_cons.mp hm with rfl | hm
        · exact hlt
        · exact Std.lt_trans hlt (hfirst entry hm)
      · rename_i hge
        have hlt : k < key := Std.lt_of_le_of_ne (Std.not_lt.mp hge) fun h => hne h.symm
        refine List.pairwise_cons.mpr ⟨fun entry hm => ?_, ih hrest⟩
        rcases mem_insert hm with rfl | hm
        · exact hlt
        · exact hfirst entry hm

theorem sorted_ofList (pairs : List (κ × ν)) : Sorted (ofList pairs) := by
  have hgeneral : ∀ (pairs table : List (κ × ν)), Sorted table →
      Sorted (pairs.foldl (fun table pair => insert pair.1 pair.2 table) table) := by
    intro pairs
    induction pairs with
    | nil => exact fun _ h => h
    | cons pair rest ih => exact fun table h => ih _ (sorted_insert pair.1 pair.2 h)
  exact hgeneral pairs [] .nil

/-- A key behind all others is put at the end. -/
theorem insert_eq_append {key : κ} {value : ν} {table : List (κ × ν)}
    (h : ∀ entry ∈ table, entry.1 < key) : insert key value table = table ++ [(key, value)] := by
  induction table with
  | nil => rfl
  | cons first rest ih =>
    obtain ⟨k, v⟩ := first
    obtain ⟨hfirst, hrest⟩ := List.forall_mem_cons.mp h
    have hne : ¬ key = k := fun he => Std.lt_irrefl (he ▸ hfirst)
    have hnlt : ¬ key < k := fun hlt => Std.lt_irrefl (Std.lt_trans hlt hfirst)
    rw [insert, if_neg hne, if_neg hnlt, ih hrest, List.cons_append]

/-- What is in order already is its own table. -/
theorem ofList_of_sorted {table : List (κ × ν)} (h : Sorted table) : ofList table = table := by
  have hgeneral : ∀ back front : List (κ × ν), Sorted (front ++ back) →
      back.foldl (fun table pair => insert pair.1 pair.2 table) front = front ++ back := by
    intro back
    induction back with
    | nil => exact fun front _ => (List.append_nil front).symm
    | cons entry rest ih =>
      intro front h
      have hlast : ∀ other ∈ front, other.1 < entry.1 :=
        fun other hm => (List.pairwise_append.mp h).2.2 other hm entry List.mem_cons_self
      rw [List.append_cons] at h
      rw [List.foldl_cons, insert_eq_append hlast, ih _ h, ← List.append_cons]
  exact hgeneral table [] h

end Insert

end LivePreview.Table
