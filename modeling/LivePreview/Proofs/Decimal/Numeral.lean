import LivePreview.Proofs.Decimal.Shortest

/-!
# Numerals

Digits, with a point among them or without. Two numerals of as many digits on either side of the
point are the same when they stand for the same number; what is printed differs from what was read
in zeros that can be left out, and where a number has a better decimal.
-/
namespace LivePreview.Decimal

/-! ### Digits -/

theorem natOfDigits_eq (ds : List Char) : natOfDigits ds = Nat.ofDigitChars 10 ds 0 :=
  Nat.ofDigitChars_eq_foldl.symm

theorem natOfDigits_append (ds es : List Char) :
    natOfDigits (ds ++ es) = 10 ^ es.length * natOfDigits ds + natOfDigits es := by
  rw [natOfDigits_eq, natOfDigits_eq, natOfDigits_eq, Nat.ofDigitChars_append,
    Nat.ofDigitChars_eq_ofDigitChars_zero]

theorem natOfDigits_toDigits (n : Nat) : natOfDigits (Nat.toDigits 10 n) = n := by
  rw [natOfDigits_eq, Nat.ofDigitChars_ten_toDigits]

theorem natOfDigits_replicate (count : Nat) : natOfDigits (List.replicate count '0') = 0 := by
  rw [natOfDigits_eq, Nat.ofDigitChars_replicate_zero, Nat.mul_zero]

theorem natOfDigits_singleton (c : Char) : natOfDigits [c] = c.toNat - '0'.toNat := by
  unfold natOfDigits
  simp

theorem natOfDigits_concat (ds : List Char) (c : Char) :
    natOfDigits (ds ++ [c]) = 10 * natOfDigits ds + (c.toNat - '0'.toNat) := by
  rw [natOfDigits_append, natOfDigits_singleton, List.length_singleton, Nat.pow_one]

theorem toNat_of_isDigit {c : Char} (h : c.isDigit = true) :
    '0'.toNat ≤ c.toNat ∧ c.toNat ≤ '0'.toNat + 9 := by
  rw [Char.isDigit] at h
  simp only [ge_iff_le, Bool.and_eq_true, decide_eq_true_eq] at h
  exact h

theorem natOfDigits_lt {ds : List Char} (h : ∀ c ∈ ds, c.isDigit = true) :
    natOfDigits ds < 10 ^ ds.length := by
  induction ds using List.reverseRecOn with
  | nil => decide
  | append_singleton ds c ih =>
    have hc := toNat_of_isDigit (h c (by simp))
    have ih := ih fun d hd => h d (by simp [hd])
    rw [natOfDigits_concat, List.length_append, List.length_singleton, Nat.pow_succ]
    omega

/-- As many digits with the same value are the same digits. -/
theorem eq_of_natOfDigits_eq {ds es : List Char} (hd : ∀ c ∈ ds, c.isDigit = true)
    (he : ∀ c ∈ es, c.isDigit = true) (hl : ds.length = es.length)
    (h : natOfDigits ds = natOfDigits es) : ds = es := by
  induction ds using List.reverseRecOn generalizing es with
  | nil => exact (List.length_eq_zero_iff.mp hl.symm).symm
  | append_singleton ds c ih =>
    induction es using List.reverseRecOn with
    | nil => simp at hl
    | append_singleton es e _ =>
      have hc := toNat_of_isDigit (hd c (by simp))
      have he' := toNat_of_isDigit (he e (by simp))
      rw [natOfDigits_concat, natOfDigits_concat] at h
      have hds : ds = es := ih (fun d hm => hd d (by simp [hm])) (fun d hm => he d (by simp [hm]))
        (by simpa using hl) (by omega)
      rw [hds, Char.toNat_inj.mp (show c.toNat = e.toNat by omega)]

theorem isDigit_of_mem_toDigits {n : Nat} {c : Char} (h : c ∈ Nat.toDigits 10 n) :
    c.isDigit = true :=
  Nat.isDigit_of_mem_toDigits (by decide) (by decide) h

/-- Digits that do not begin with a zero are as many as their value has. -/
theorem width_natOfDigits {ds : List Char} (h : ∀ c ∈ ds, c.isDigit = true) (hne : ds ≠ [])
    (hh : ds.head? ≠ some '0') : width (natOfDigits ds) = ds.length := by
  obtain ⟨c, rest, rfl⟩ := List.exists_cons_of_ne_nil hne
  refine Nat.le_antisymm ((width_le_iff (by simp)).mpr (natOfDigits_lt h)) ?_
  by_contra hlt
  rw [List.length_cons, Nat.not_le] at hlt
  have hc := toNat_of_isDigit (h c List.mem_cons_self)
  have hc0 : c.toNat ≠ '0'.toNat := fun heq => hh (by rw [Char.toNat_inj.mp heq]; rfl)
  have hval := natOfDigits_append [c] rest
  rw [natOfDigits_singleton] at hval
  have hpow : natOfDigits (c :: rest) < 10 ^ rest.length := by
    exact (lt_pow_width _).trans_le (Nat.pow_le_pow_right (by decide) (Nat.le_of_lt_succ hlt))
  have hge : 10 ^ rest.length ≤ 10 ^ rest.length * (c.toNat - '0'.toNat) :=
    Nat.le_mul_of_pos_right _ (by omega)
  rw [List.singleton_append] at hval
  omega

theorem toDigits_natOfDigits {ds : List Char} (h : ∀ c ∈ ds, c.isDigit = true) (hne : ds ≠ [])
    (hh : ds.head? ≠ some '0') : Nat.toDigits 10 (natOfDigits ds) = ds :=
  eq_of_natOfDigits_eq (fun _ hm => isDigit_of_mem_toDigits hm) h (width_natOfDigits h hne hh)
    (natOfDigits_toDigits _)

theorem head?_toDigits_ne {n : Nat} (h : 0 < n) : (Nat.toDigits 10 n).head? ≠ some '0' := by
  intro hh
  obtain ⟨rest, hrest⟩ := List.head?_eq_some_iff.mp hh
  have hval := natOfDigits_append ['0'] rest
  rw [List.singleton_append, ← hrest, natOfDigits_toDigits, natOfDigits_singleton, Nat.sub_self,
    Nat.mul_zero, Nat.zero_add] at hval
  have hlt : natOfDigits rest < 10 ^ rest.length := natOfDigits_lt fun c hc =>
    isDigit_of_mem_toDigits (n := n) (by rw [hrest]; exact List.mem_cons_of_mem _ hc)
  have hge := pow_width_le h
  unfold width at hge
  rw [hrest, List.length_cons, Nat.add_sub_cancel] at hge
  omega

/-- Digits are those of their value just when no zero stands in front of others. -/
theorem toDigits_natOfDigits_iff {ds : List Char} (h : ∀ c ∈ ds, c.isDigit = true) (hne : ds ≠ []) :
    Nat.toDigits 10 (natOfDigits ds) = ds ↔ ds = ['0'] ∨ ds.head? ≠ some '0' := by
  constructor
  · intro heq
    rcases Nat.eq_zero_or_pos (natOfDigits ds) with h0 | h0
    · rw [h0] at heq
      exact Or.inl heq.symm
    · rw [← heq]
      exact Or.inr (head?_toDigits_ne h0)
  · rintro (rfl | hh)
    · rfl
    · exact toDigits_natOfDigits h hne hh

/-! ### The point -/

section Point

variable {whole fraction : List Char} {digits : Nat} {power : Int}

theorem point_not_mem {ds : List Char} (h : ∀ c ∈ ds, c.isDigit = true) : '.' ∉ ds :=
  fun hm => absurd (h '.' hm) (by decide)

/-- Digits with enough zeros in front for one digit before the point. -/
def padded (digits places : Nat) : List Char :=
  List.replicate (places + 1 - width digits) '0' ++ Nat.toDigits 10 digits

theorem isDigit_of_mem_padded {digits places : Nat} {c : Char} (h : c ∈ padded digits places) :
    c.isDigit = true := by
  rcases List.mem_append.mp h with h | h
  · rw [List.eq_of_mem_replicate h]
    rfl
  · exact isDigit_of_mem_toDigits h

theorem natOfDigits_padded (digits places : Nat) : natOfDigits (padded digits places) = digits := by
  rw [padded, natOfDigits_append, natOfDigits_replicate, natOfDigits_toDigits, Nat.mul_zero,
    Nat.zero_add]

theorem length_padded (digits places : Nat) :
    (padded digits places).length = max (places + 1) (width digits) := by
  rw [padded, List.length_append, List.length_replicate, ← width]
  omega

theorem positional_of_neg (h : power < 0) : Binary64.positional digits power =
    (padded digits (-power).toNat).take ((padded digits (-power).toNat).length - (-power).toNat) ++
      '.' :: (padded digits (-power).toNat).drop
        ((padded digits (-power).toNat).length - (-power).toNat) := by
  unfold Binary64.positional
  rw [if_neg (by omega)]
  rfl

theorem positional_of_nonneg (h : 0 ≤ power) : Binary64.positional digits power =
    Nat.toDigits 10 digits ++ List.replicate power.toNat '0' := by
  unfold Binary64.positional
  dsimp only
  rw [if_pos h]

theorem isDigit_of_mem_positional (h : 0 ≤ power) {c : Char}
    (hc : c ∈ Binary64.positional digits power) : c.isDigit = true := by
  rw [positional_of_nonneg h] at hc
  rcases List.mem_append.mp hc with hc | hc
  · exact isDigit_of_mem_toDigits hc
  · rw [List.eq_of_mem_replicate hc]
    rfl

theorem padded_natOfDigits (hw : ∀ c ∈ whole, c.isDigit = true)
    (hf : ∀ c ∈ fraction, c.isDigit = true) (hwne : whole ≠ []) (hfne : fraction ≠ [])
    (hlead : whole = ['0'] ∨ whole.head? ≠ some '0') :
    padded (natOfDigits (whole ++ fraction)) fraction.length = whole ++ fraction := by
  have hds : ∀ c ∈ whole ++ fraction, c.isDigit = true := by
    intro c hc
    rcases List.mem_append.mp hc with hc | hc
    · exact hw c hc
    · exact hf c hc
  have hfpos := List.length_pos_iff.mpr hfne
  refine eq_of_natOfDigits_eq (fun _ hc => isDigit_of_mem_padded hc) hds ?_ (natOfDigits_padded _ _)
  rw [length_padded, List.length_append]
  rcases hlead with rfl | hhead
  · have hwidth : width (natOfDigits (['0'] ++ fraction)) ≤ fraction.length := by
      rw [width_le_iff hfpos, natOfDigits_append, natOfDigits_singleton, Nat.sub_self,
        Nat.mul_zero, Nat.zero_add]
      exact natOfDigits_lt hf
    rw [List.length_singleton]
    omega
  · have hwidth := width_natOfDigits hds (by simp [hwne])
      (by rwa [List.head?_append_of_ne_nil _ hwne])
    have := List.length_pos_iff.mpr hwne
    rw [hwidth, List.length_append]
    omega

/-- The digits before the point begin with a zero only where it stands alone. -/
theorem lead_of_append_eq_padded {places : Nat} (h : whole ++ fraction = padded digits places)
    (hl : fraction.length = places) (hwne : whole ≠ []) (hpos : 0 < places) :
    whole = ['0'] ∨ whole.head? ≠ some '0' := by
  have hlength := congrArg List.length h
  rw [List.length_append, length_padded, hl] at hlength
  have hhead : whole.head? = (padded digits places).head? := by
    rw [← h, List.head?_append_of_ne_nil _ hwne]
  by_cases hle : places + 1 ≤ width digits
  · right
    rw [hhead, padded, Nat.sub_eq_zero_of_le hle, List.replicate_zero, List.nil_append]
    refine head?_toDigits_ne (Nat.pos_of_ne_zero ?_)
    rintro rfl
    have : width 0 = 1 := rfl
    omega
  · left
    obtain ⟨c, rfl⟩ := List.length_eq_one_iff.mp (show whole.length = 1 by omega)
    obtain ⟨k, hk⟩ := Nat.exists_eq_succ_of_ne_zero (show places + 1 - width digits ≠ 0 by omega)
    rw [padded, hk, List.replicate_succ] at hhead
    simpa using hhead

theorem positional_eq_iff (hw : ∀ c ∈ whole, c.isDigit = true)
    (hf : ∀ c ∈ fraction, c.isDigit = true) (hwne : whole ≠ []) (hfne : fraction ≠ []) :
    Binary64.positional digits power = whole ++ '.' :: fraction ↔
      (whole = ['0'] ∨ whole.head? ≠ some '0') ∧ natOfDigits (whole ++ fraction) = digits ∧
        power = -fraction.length := by
  have hfpos := List.length_pos_iff.mpr hfne
  constructor
  · intro h
    have hneg : power < 0 := by
      by_contra hge
      have hpoint : '.' ∉ Binary64.positional digits power :=
        point_not_mem fun _ => isDigit_of_mem_positional (not_lt.mp hge)
      rw [h] at hpoint
      simp at hpoint
    rw [positional_of_neg hneg] at h
    have hpoint {ds : List Char} (hs : ds.Sublist (padded digits (-power).toNat)) : '.' ∉ ds :=
      point_not_mem fun c hc => isDigit_of_mem_padded (hs.subset hc)
    obtain ⟨hA, -, hB⟩ := (List.append_cons_inj_of_notMem (hpoint (List.take_sublist _ _))
      (hpoint (List.drop_sublist _ _))).mp h
    have hcat : whole ++ fraction = padded digits (-power).toNat := by
      rw [← hA, ← hB, List.take_append_drop]
    have hplaces : fraction.length = (-power).toNat := by
      have := length_padded digits (-power).toNat
      rw [← hB, List.length_drop]
      omega
    refine ⟨lead_of_append_eq_padded hcat hplaces hwne (by omega), ?_, by omega⟩
    rw [hcat, natOfDigits_padded]
  · rintro ⟨hlead, rfl, rfl⟩
    rw [positional_of_neg (by omega), neg_neg, Int.toNat_natCast,
      padded_natOfDigits hw hf hwne hfne hlead, List.length_append, Nat.add_sub_cancel,
      List.take_left, List.drop_left]

end Point

/-! ### Numerals -/

/-- Decimal digits, and behind a point further ones if there are any. -/
structure Numeral where
  whole : List Char
  fraction : List Char
  isDigit_whole : ∀ c ∈ whole, c.isDigit = true
  isDigit_fraction : ∀ c ∈ fraction, c.isDigit = true
  whole_ne_nil : whole ≠ []

namespace Numeral

variable {numeral : Numeral}

def chars (numeral : Numeral) : List Char :=
  numeral.whole ++ if numeral.fraction = [] then [] else '.' :: numeral.fraction

def text (numeral : Numeral) : String := String.ofList numeral.chars

/-- All digits as one number. -/
def digits (numeral : Numeral) : Nat := natOfDigits (numeral.whole ++ numeral.fraction)

/-- The power of ten of the last digit. -/
def power (numeral : Numeral) : Int := -numeral.fraction.length

/-- No zero can be left out. -/
structure Reduced (numeral : Numeral) : Prop where
  lead : numeral.whole = ['0'] ∨ numeral.whole.head? ≠ some '0'
  last : numeral.fraction.getLast? ≠ some '0'

theorem mem_chars {c : Char} (h : c ∈ numeral.chars) : c.isDigit = true ∨ c = '.' := by
  unfold chars at h
  rcases List.mem_append.mp h with h | h
  · exact Or.inl (numeral.isDigit_whole c h)
  · split at h
    · cases h
    · rcases List.mem_cons.mp h with rfl | h
      · exact Or.inr rfl
      · exact Or.inl (numeral.isDigit_fraction c h)

/-- A word with another character in it is no numeral. -/
theorem text_ne (numeral : Numeral) (word : String)
    (h : word.toList.any (fun c => !c.isDigit && c ≠ '.') = true) : numeral.text ≠ word := by
  rintro rfl
  obtain ⟨c, hc, hne⟩ := List.any_eq_true.mp h
  rw [text, String.toList_ofList] at hc
  rcases mem_chars hc with hd | rfl
  · simp [hd] at hne
  · simp at hne

theorem chars_of_integer (h : numeral.fraction = []) : numeral.chars = numeral.whole := by
  rw [chars, if_pos h, List.append_nil]

theorem chars_of_fraction (h : numeral.fraction ≠ []) :
    numeral.chars = numeral.whole ++ '.' :: numeral.fraction := by
  rw [chars, if_neg h]

theorem mod_ten_eq_zero_iff (h : numeral.fraction ≠ []) :
    numeral.digits % 10 = 0 ↔ numeral.fraction.getLast? = some '0' := by
  obtain ⟨init, c, hc⟩ := List.eq_nil_or_concat numeral.fraction |>.resolve_left h
  have hdigit := toNat_of_isDigit (numeral.isDigit_fraction c (by simp [hc]))
  rw [digits, hc, List.concat_eq_append, ← List.append_assoc, natOfDigits_concat,
    List.getLast?_concat, Option.some.injEq, ← Char.toNat_inj]
  omega

/-- What is left of the point bounds the number. -/
theorem magnitude_lt (numeral : Numeral) :
    Binary64.magnitude numeral.digits numeral.power < natOfDigits numeral.whole + 1 := by
  have hlt := natOfDigits_lt numeral.isDigit_fraction
  have hp : (0 : ℚ) < 10 ^ numeral.fraction.length := by positivity
  rw [Binary64.magnitude, power, zpow_neg, zpow_natCast, ← div_eq_mul_inv, div_lt_iff₀ hp, digits,
    natOfDigits_append]
  have : (natOfDigits numeral.fraction : ℚ) < 10 ^ numeral.fraction.length := by exact_mod_cast hlt
  push_cast
  linarith

theorem magnitude_lt_two_pow (h : natOfDigits numeral.whole < 2 ^ 64) :
    Binary64.magnitude numeral.digits numeral.power < 2 ^ 64 :=
  numeral.magnitude_lt.trans_le (by exact_mod_cast h)

theorem takeSign_of_isDigit {c : Char} (h : c.isDigit = true) (rest : List Char) :
    takeSign (c :: rest) = (false, c :: rest) := by
  unfold takeSign
  split
  · rename_i heq
    obtain ⟨rfl, -⟩ := List.cons.inj heq
    exact absurd h (by decide)
  · rename_i heq
    obtain ⟨rfl, -⟩ := List.cons.inj heq
    exact absurd h (by decide)
  · rfl

/-- The sign that a numeral does not have. -/
theorem takeSign_chars (numeral : Numeral) : takeSign numeral.chars = (false, numeral.chars) := by
  obtain ⟨c, rest, hc⟩ := List.exists_cons_of_ne_nil numeral.whole_ne_nil
  rw [chars, hc, List.cons_append]
  exact takeSign_of_isDigit (numeral.isDigit_whole c (by simp [hc])) _

theorem span_isDigit {ds : List Char} (h : ∀ c ∈ ds, c.isDigit = true) (rest : List Char)
    (hr : ∀ c ∈ rest.head?, c.isDigit = false) : (ds ++ rest).span Char.isDigit = (ds, rest) := by
  have hrest : rest.takeWhile Char.isDigit = [] ∧ rest.dropWhile Char.isDigit = rest := by
    cases rest with
    | nil => exact ⟨rfl, rfl⟩
    | cons c rest => simp [hr c rfl]
  rw [List.span_eq_takeWhile_dropWhile, List.takeWhile_append_of_pos h,
    List.dropWhile_append_of_pos h, hrest.1, hrest.2, List.append_nil]

theorem parse_chars (numeral : Numeral) :
    Decimal.parse numeral.chars = some (.ofDecimal false numeral.digits numeral.power) := by
  unfold Decimal.parse
  simp only [takeSign_chars]
  by_cases h : numeral.fraction = []
  · have hwhole := span_isDigit numeral.isDigit_whole [] (by simp)
    rw [List.append_nil] at hwhole
    simp only [chars_of_integer h, hwhole]
    rw [if_neg (by simp [numeral.whole_ne_nil])]
    simp [exponent?, digits, power, h]
  · have hwhole := span_isDigit numeral.isDigit_whole ('.' :: numeral.fraction) (by simp)
    have hfraction := span_isDigit numeral.isDigit_fraction [] (by simp)
    rw [List.append_nil] at hfraction
    simp only [chars_of_fraction h, hwhole, hfraction]
    rw [if_neg (by simp [numeral.whole_ne_nil])]
    simp [exponent?, digits, power]

/-- The numeral of a natural number. -/
def ofNat (n : Nat) : Numeral where
  whole := Nat.toDigits 10 n
  fraction := []
  isDigit_whole _ := isDigit_of_mem_toDigits
  isDigit_fraction := by simp
  whole_ne_nil := Nat.toDigits_ne_nil

theorem digits_ofNat (n : Nat) : (ofNat n).digits = n := by
  rw [digits, ofNat, List.append_nil, natOfDigits_toDigits]

theorem exists_chars_eq_of_nonneg {power : Int} (digits : Nat) (hp : 0 ≤ power) :
    ∃ numeral : Numeral, numeral.chars = Binary64.positional digits power ∧
      Binary64.magnitude numeral.digits numeral.power = Binary64.magnitude digits power := by
  have hne : Binary64.positional digits power ≠ [] := by
    rw [positional_of_nonneg hp]
    simp [Nat.toDigits_ne_nil]
  refine ⟨⟨Binary64.positional digits power, [], fun c => isDigit_of_mem_positional hp, by simp,
    hne⟩, chars_of_integer rfl, ?_⟩
  show Binary64.magnitude (natOfDigits (Binary64.positional digits power ++ [])) 0 = _
  rw [List.append_nil, positional_of_nonneg hp, natOfDigits_append, natOfDigits_toDigits,
    natOfDigits_replicate, List.length_replicate, Nat.add_zero, Nat.mul_comm,
    Binary64.magnitude_mul_pow, Int.toNat_of_nonneg hp, zero_add]

theorem exists_chars_eq_of_neg {power : Int} (digits : Nat) (hp : power < 0) :
    ∃ numeral : Numeral, numeral.chars = Binary64.positional digits power ∧
      Binary64.magnitude numeral.digits numeral.power = Binary64.magnitude digits power := by
  have hlength := length_padded digits (-power).toNat
  have hvalue := natOfDigits_padded digits (-power).toNat
  have hdigit : ∀ c ∈ padded digits (-power).toNat, c.isDigit = true :=
    fun _ => isDigit_of_mem_padded
  rw [positional_of_neg hp]
  generalize padded digits (-power).toNat = ds at *
  have hwhole : ds.take (ds.length - (-power).toNat) ≠ [] := by
    rw [← List.length_pos_iff, List.length_take]
    omega
  have hfraction : ds.drop (ds.length - (-power).toNat) ≠ [] := by
    rw [← List.length_pos_iff, List.length_drop]
    omega
  refine ⟨⟨ds.take (ds.length - (-power).toNat), ds.drop (ds.length - (-power).toNat),
    fun c hc => hdigit c (List.mem_of_mem_take hc), fun c hc => hdigit c (List.mem_of_mem_drop hc),
    hwhole⟩, chars_of_fraction hfraction, ?_⟩
  show Binary64.magnitude (natOfDigits (ds.take (ds.length - (-power).toNat) ++
    ds.drop (ds.length - (-power).toNat))) (-(ds.drop (ds.length - (-power).toNat)).length) = _
  rw [List.take_append_drop, hvalue, List.length_drop]
  congr 1
  omega

/-- What is printed is a numeral. -/
theorem exists_chars_eq_positional (digits : Nat) (power : Int) :
    ∃ numeral : Numeral, numeral.chars = Binary64.positional digits power ∧
      Binary64.magnitude numeral.digits numeral.power = Binary64.magnitude digits power := by
  by_cases hp : 0 ≤ power
  · exact exists_chars_eq_of_nonneg digits hp
  · exact exists_chars_eq_of_neg digits (not_le.mp hp)

/-- What is printed of a number is read as the number again. -/
theorem parse_text {mantissa : Nat} {exponent : Int} (hm : Binary64.Normalized mantissa exponent)
    (hmax : exponent ≤ Binary64.maxExponent) :
    Decimal.parse (Binary64.finite false mantissa exponent).text.toList =
      some (.finite false mantissa exponent) := by
  rw [Binary64.text, String.toList_ofList]
  dsimp only
  rw [if_neg Bool.false_ne_true]
  split
  · rename_i h0
    subst h0
    obtain rfl := hm.full.resolve_left (by decide)
    rfl
  · rename_i h0
    have h0 := Nat.pos_of_ne_zero h0
    have hbest := Binary64.best_shortest h0 hm.lt exponent
    obtain ⟨numeral, hchars, hmag⟩ := exists_chars_eq_positional
      (Binary64.shortest mantissa exponent).1 (Binary64.shortest mantissa exponent).2
    have hpos : 0 < numeral.digits := by
      rw [Nat.pos_iff_ne_zero]
      intro hzero
      have := Binary64.magnitude_pos hbest.pos (Binary64.shortest mantissa exponent).2
      rw [← hmag, hzero, Binary64.magnitude_zero] at this
      exact this.false
    rw [← hchars, parse_chars, (Binary64.ofDecimal_eq_finite_iff hpos h0).mpr]
    rw [hmag]
    exact ⟨hm, hmax, hbest.roundsTo⟩

/-- A number is printed as the numeral from which it was read just when no zero can be left out of
the numeral and it is the shortest one. -/
theorem text_ofDecimal_eq_iff (hf : numeral.fraction ≠ [])
    (hb : Binary64.magnitude numeral.digits numeral.power < 2 ^ 64) :
    (Binary64.ofDecimal false numeral.digits numeral.power).text = numeral.text ↔
      numeral.Reduced ∧ Binary64.IsShortest numeral.digits numeral.power := by
  obtain ⟨mantissa, exponent, h⟩ := Binary64.exists_ofDecimal_eq false hb
  rw [h, Binary64.text, text, String.ofList_inj, chars_of_fraction hf]
  rcases Nat.eq_zero_or_pos mantissa with rfl | h0
  · refine ⟨fun heq => ?_, fun ⟨hr, hs⟩ => absurd hs (Binary64.not_isShortest_of_zero h ?_)⟩
    · have hlength := congrArg List.length heq
      have := List.length_pos_iff.mpr numeral.whole_ne_nil
      simp only [if_pos, Bool.false_eq_true, if_false, List.length_append, List.length_cons,
        List.length_nil] at hlength
      omega
    · have := mt (mod_ten_eq_zero_iff hf).mp hr.last
      omega
  · have hm := (Binary64.normalized_of_ofDecimal_eq h).1.lt
    have hbest := Binary64.best_shortest h0 hm exponent
    rw [Binary64.isShortest_iff_best h h0]
    dsimp only
    rw [if_neg h0.ne', if_neg Bool.false_ne_true, positional_eq_iff numeral.isDigit_whole
      numeral.isDigit_fraction numeral.whole_ne_nil hf]
    constructor
    · rintro ⟨hlead, hd, hp⟩
      rw [← hd, hp] at hbest
      exact ⟨⟨hlead, mt (mod_ten_eq_zero_iff hf).mpr hbest.mod_ten_ne_zero⟩, hbest⟩
    · rintro ⟨hr, hs⟩
      obtain ⟨hd, hp⟩ := hs.unique hbest
      exact ⟨hr.lead, hd, hp.symm⟩

/-- So few digits behind the point leave the number far above the smallest ones. -/
theorem zpow_le_magnitude (h0 : 0 < numeral.digits) (hl : numeral.fraction.length ≤ 15) :
    (2 : ℚ) ^ (-1000 : Int) ≤ Binary64.magnitude numeral.digits numeral.power := by
  calc (2 : ℚ) ^ (-1000 : Int) ≤ 2 ^ (-60 : Int) := zpow_le_zpow_right₀ one_le_two (by decide)
    _ ≤ 10 ^ (-15 : Int) := by norm_num
    _ ≤ 10 ^ numeral.power := by
        refine zpow_le_zpow_right₀ (by norm_num) ?_
        unfold power
        omega
    _ ≤ Binary64.magnitude numeral.digits numeral.power :=
        le_mul_of_one_le_left (by positivity) (by exact_mod_cast h0)

theorem isDigit_of_mem_append {c : Char} (h : c ∈ numeral.whole ++ numeral.fraction) :
    c.isDigit = true := by
  rcases List.mem_append.mp h with h | h
  · exact numeral.isDigit_whole c h
  · exact numeral.isDigit_fraction c h

/-- Fifteen digits are printed as they were read, unless a zero can be left out. -/
theorem isShortest_of_length_le (hr : numeral.Reduced) (hf : numeral.fraction ≠ [])
    (hl : (numeral.whole ++ numeral.fraction).length ≤ 15) :
    Binary64.IsShortest numeral.digits numeral.power := by
  have h10 : numeral.digits % 10 ≠ 0 := mt (mod_ten_eq_zero_iff hf).mp hr.last
  have h0 : 0 < numeral.digits := by omega
  have hw : width numeral.digits ≤ 15 := by
    rw [width_le_iff (by decide)]
    exact (natOfDigits_lt fun _ => isDigit_of_mem_append).trans_le
      (Nat.pow_le_pow_right (by decide) hl)
  rw [List.length_append] at hl
  have hwhole : natOfDigits numeral.whole < 10 ^ 15 :=
    (natOfDigits_lt numeral.isDigit_whole).trans_le (Nat.pow_le_pow_right (by decide) (by omega))
  have hb := magnitude_lt_two_pow (hwhole.trans (by decide))
  obtain ⟨mantissa, exponent, h⟩ := Binary64.exists_ofDecimal_eq false hb
  obtain ⟨hnorm, -, hmag⟩ := Binary64.normalized_of_ofDecimal_eq h
  have hfull : 2 ^ 52 ≤ mantissa := by
    refine hnorm.full.resolve_right ?_
    rintro rfl
    have hlt := (zpow_le_magnitude h0 (by omega)).trans_lt hmag
    exact absurd ((zpow_lt_zpow_iff_right₀ one_lt_two).mp hlt) (by decide)
  have hm0 : 0 < mantissa := by omega
  rw [Binary64.isShortest_iff_best h hm0]
  exact Binary64.best_of_width_le hfull hw h10
    ((Binary64.ofDecimal_eq_finite_iff h0 hm0).mp h).2.2

/-- The numeral is what is printed for the number it is read as: no zero can be left out, and with a
point it is the shortest. -/
structure Printed (numeral : Numeral) : Prop extends numeral.Reduced where
  isShortest : numeral.fraction ≠ [] → Binary64.IsShortest numeral.digits numeral.power

theorem Reduced.printed (h : numeral.Reduced)
    (hl : (numeral.whole ++ numeral.fraction).length ≤ 15) : numeral.Printed :=
  ⟨h, fun hf => isShortest_of_length_le h hf hl⟩

end Numeral

end LivePreview.Decimal
