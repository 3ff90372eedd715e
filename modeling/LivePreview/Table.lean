/-!
# Ordered tables

A table is a list of keys with values, in increasing order of the keys and without repeats.
`get?_insert`, `get?_erase` and their companions say what each operation does to the look-up.
-/
namespace LivePreview.Table

variable {κ ν : Type}

section Lookup

variable [DecidableEq κ]

/-- The value at a key. -/
def get? (key : κ) : List (κ × ν) → Option ν
  | [] => none
  | (k, value) :: rest => if key = k then some value else get? key rest

def contains (key : κ) (table : List (κ × ν)) : Bool := (get? key table).isSome

/-- The table without the key. -/
def erase (key : κ) (table : List (κ × ν)) : List (κ × ν) := table.filter fun entry => entry.1 ≠ key

theorem get?_erase_self (key : κ) (table : List (κ × ν)) : get? key (erase key table) = none := by
  induction table with
  | nil => rfl
  | cons entry rest ih =>
    obtain ⟨k, v⟩ := entry
    by_cases h : key = k
    · subst h; simpa [erase] using ih
    · have h' : k ≠ key := fun e => h e.symm
      simp only [erase, List.filter_cons, h', ne_eq, not_false_eq_true, decide_true, if_true, get?, h,
        if_false]
      exact ih

theorem get?_erase_of_ne {key other : κ} (h : other ≠ key) (table : List (κ × ν)) :
    get? other (erase key table) = get? other table := by
  induction table with
  | nil => rfl
  | cons entry rest ih =>
    obtain ⟨k, v⟩ := entry
    by_cases hk : k = key
    · subst hk
      simp only [erase, List.filter_cons, ne_eq, not_true_eq_false, decide_false, get?, h, if_false]
      exact ih
    · simp only [erase, List.filter_cons, hk, ne_eq, not_false_eq_true, decide_true, if_true, get?]
      split
      · rfl
      · exact ih

end Lookup

section Order

variable [DecidableEq κ] [LT κ] [DecidableLT κ]

/-- Puts the value at the key, in place of the one that stands there. -/
def insert (key : κ) (value : ν) : List (κ × ν) → List (κ × ν)
  | [] => [(key, value)]
  | (k, v) :: rest =>
    if key = k then (key, value) :: rest
    else if key < k then (key, value) :: (k, v) :: rest
    else (k, v) :: insert key value rest

/-- The table of a list of pairs; of several values at one key the last stays. -/
def ofList (pairs : List (κ × ν)) : List (κ × ν) :=
  pairs.foldl (fun table pair => insert pair.1 pair.2 table) []

theorem get?_insert_self (key : κ) (value : ν) (table : List (κ × ν)) :
    get? key (insert key value table) = some value := by
  induction table with
  | nil => simp [insert, get?]
  | cons entry rest ih =>
    obtain ⟨k, v⟩ := entry
    rw [insert]; split
    · simp [get?]
    · split
      · simp [get?]
      · simp [get?, *]

theorem get?_insert_of_ne {key other : κ} (h : other ≠ key) (value : ν) (table : List (κ × ν)) :
    get? other (insert key value table) = get? other table := by
  induction table with
  | nil => simp [insert, get?, h]
  | cons entry rest ih =>
    obtain ⟨k, v⟩ := entry
    rw [insert]; split
    · subst_vars; simp [get?, h]
    · split
      · simp [get?, h]
      · by_cases hk : other = k <;> simp [get?, hk, ih]

end Order

end LivePreview.Table
