import LivePreview.Proofs.Decimal.Search

/-!
# Shortest decimals

A number has one best decimal, and it does not end in a zero. So a decimal is found again after it
was read as a number just when it is the best one; fifteen digits are few enough for that.
-/
namespace LivePreview.Decimal

namespace Binary64

variable {digits digits' count mantissa : Nat} {power power' exponent : Int}

/-! ### The best decimal is one -/

theorem eq_mul_pow_of_magnitude_eq (h : magnitude digits power = magnitude digits' power')
    (hp : power ≤ power') : digits = digits' * 10 ^ (power' - power).toNat := by
  obtain ⟨j, hj⟩ := Int.eq_ofNat_of_zero_le (show 0 ≤ power' - power by omega)
  obtain rfl : power' = power + j := by omega
  rw [← magnitude_mul_pow] at h
  have hle := magnitude_le_iff.mp h.le
  have hge := magnitude_le_iff.mp h.ge
  rw [hj]
  exact Nat.le_antisymm hle hge

theorem eq_of_magnitude_eq (h : magnitude digits power = magnitude digits' power')
    (hw : width digits = width digits') (h0 : 0 < digits) (h0' : 0 < digits') :
    digits = digits' ∧ power = power' := by
  have key {a b : Nat} {k l : Int} (h : magnitude a k = magnitude b l) (hw : width a = width b)
      (hb : 0 < b) : l ≤ k := by
    by_contra hlt
    have heq := eq_mul_pow_of_magnitude_eq h (by omega)
    have := width_lt_mul_pow (j := (l - k).toNat) hb (by omega)
    rw [← heq] at this
    omega
  have hle := key h hw h0'
  have hge := key h.symm hw.symm h0
  obtain rfl : power = power' := by omega
  have heq := eq_mul_pow_of_magnitude_eq h le_rfl
  rw [sub_self, Int.toNat_zero, Nat.pow_zero, Nat.mul_one] at heq
  exact ⟨heq, rfl⟩

theorem Best.unique (h : Best mantissa exponent digits power)
    (h' : Best mantissa exponent digits' power') : digits = digits' ∧ power = power' := by
  have hw : width digits = width digits' :=
    Nat.le_antisymm (h.width_le _ _ h'.pos h'.roundsTo) (h'.width_le _ _ h.pos h.roundsTo)
  obtain ⟨hle, htie⟩ := h.near _ _ h'.pos h'.roundsTo hw.ge
  obtain ⟨hge, htie'⟩ := h'.near _ _ h.pos h.roundsTo hw.le
  have hdist := le_antisymm hle hge
  exact eq_of_magnitude_eq (le_antisymm (htie' hdist.symm) (htie hdist)) hw h.pos h'.pos

theorem Best.mod_ten_ne_zero (h : Best mantissa exponent digits power) : digits % 10 ≠ 0 := by
  intro h10
  obtain ⟨c, rfl⟩ := Nat.dvd_of_mod_eq_zero h10
  have hpos := h.pos
  have hc : 0 < c := by omega
  have hmag := magnitude_mul_pow c power 1
  rw [Nat.pow_one, Nat.mul_comm] at hmag
  have hr := h.roundsTo
  rw [hmag] at hr
  have hle := h.width_le c _ hc hr
  have hlt := width_lt_mul_pow (j := 1) hc one_pos
  rw [Nat.pow_one, Nat.mul_comm] at hlt
  omega

/-! ### Fifteen digits -/

/-- A decimal with zeros at its end, so that it has all of `count` digits. -/
theorem exists_full (h0 : 0 < digits) (hw : width digits ≤ count) (power : Int) :
    ∃ c k, 10 ^ (count - 1) ≤ c ∧ c < 10 ^ count ∧ magnitude c k = magnitude digits power := by
  have hpos := width_pos digits
  refine ⟨digits * 10 ^ (count - width digits), power - (count - width digits : Nat), ?_, ?_, ?_⟩
  · calc 10 ^ (count - 1) = 10 ^ (width digits - 1) * 10 ^ (count - width digits) := by
          rw [← Nat.pow_add]
          congr 1
          omega
      _ ≤ digits * 10 ^ (count - width digits) := Nat.mul_le_mul_right _ (pow_width_le h0)
  · calc digits * 10 ^ (count - width digits)
        < 10 ^ width digits * 10 ^ (count - width digits) :=
          Nat.mul_lt_mul_of_pos_right (lt_pow_width digits) (Nat.pow_pos (by decide))
      _ = 10 ^ count := by rw [← Nat.pow_add, Nat.add_sub_cancel' hw]
  · rw [magnitude_mul_pow, sub_add_cancel]

/-- Two decimals next to each other with fifteen digits are not rounded to one number. -/
theorem not_roundsTo_succ (hm : 2 ^ 52 ≤ mantissa) (hd : digits < 10 ^ 15)
    (h : RoundsTo mantissa exponent (magnitude digits power)) {z : ℚ}
    (hz : magnitude (digits + 1) power ≤ z) : ¬ RoundsTo mantissa exponent z := by
  intro hrz
  have he : (0 : ℚ) < 2 ^ exponent := by positivity
  have hp : (0 : ℚ) < 10 ^ power := by positivity
  have hlow := h.le.1
  have hhigh := hz.trans hrz.le.2
  have hdq : (digits : ℚ) ≤ 10 ^ 15 := by exact_mod_cast hd.le
  have hge : (2 : ℚ) ^ 52 ≤ mantissa := by exact_mod_cast hm
  unfold magnitude at hlow hhigh
  push_cast at hhigh
  rw [sub_mul] at hlow
  rw [add_mul, add_mul] at hhigh
  have hdigits := mul_le_mul_of_nonneg_right hdq hp.le
  have hgap := mul_le_mul_of_nonneg_right (gapBelow_le mantissa exponent) he.le
  have hmantissa := mul_le_mul_of_nonneg_right hge he.le
  linarith

/-- Decimals of fifteen digits lie further apart than numbers with all their digits. -/
theorem magnitude_eq_of_roundsTo (hm : 2 ^ 52 ≤ mantissa) (h0 : 0 < digits) (h0' : 0 < digits')
    (hw : width digits ≤ 15) (hw' : width digits' ≤ 15)
    (h : RoundsTo mantissa exponent (magnitude digits power))
    (h' : RoundsTo mantissa exponent (magnitude digits' power')) :
    magnitude digits power = magnitude digits' power' := by
  have key {a b : Nat} {k l : Int} (ha : 0 < a) (hwa : width a ≤ 15) (hwb : width b ≤ 15)
      (hra : RoundsTo mantissa exponent (magnitude a k))
      (hrb : RoundsTo mantissa exponent (magnitude b l)) : magnitude b l ≤ magnitude a k := by
    obtain ⟨c, j, hfull, hlt, hc⟩ := exists_full ha hwa k
    rw [← hc] at hra ⊢
    have hside := magnitude_le_or_le (by decide) hfull ((width_le_iff (by decide)).mp hwb) j l
    exact hside.resolve_right fun hle => not_roundsTo_succ hm hlt hra hle hrb
  exact le_antisymm (key h0' hw' hw h' h) (key h0 hw hw' h h')

/-- Fifteen digits are few enough to be found again, unless the last is a zero. -/
theorem best_of_width_le (hm : 2 ^ 52 ≤ mantissa) (hw : width digits ≤ 15) (h10 : digits % 10 ≠ 0)
    (h : RoundsTo mantissa exponent (magnitude digits power)) :
    Best mantissa exponent digits power := by
  have h0 : 0 < digits := by omega
  refine ⟨h0, h, fun c k hc hck => ?_, fun c k hc hck hle => ?_⟩
  · by_contra hlt
    have heq := magnitude_eq_of_roundsTo hm h0 hc hw (by omega) h hck
    by_cases hk : k ≤ power
    · have := eq_mul_pow_of_magnitude_eq heq.symm hk
      rw [this] at hlt
      exact hlt (width_mono (Nat.le_mul_of_pos_right _ (Nat.pow_pos (by decide))))
    · have := eq_mul_pow_of_magnitude_eq heq (by omega)
      obtain ⟨j, hj⟩ := Nat.exists_eq_succ_of_ne_zero (show (k - power).toNat ≠ 0 by omega)
      rw [hj, Nat.pow_succ, ← Nat.mul_assoc] at this
      omega
  · rw [magnitude_eq_of_roundsTo hm h0 hc hw (hle.trans hw) h hck]
    exact ⟨le_rfl, fun _ => le_rfl⟩

/-! ### Decimals as they are read -/

/-- What a finite number amounts to. -/
def value : Binary64 → ℚ
  | finite negative mantissa exponent => (if negative then -1 else 1) * (mantissa * 2 ^ exponent)
  | _ => 0

/-- No decimal that is read as the same number has fewer digits. Of those with as few none is nearer
to that number, and none as near is greater. -/
structure IsShortest (digits : Nat) (power : Int) : Prop where
  width_le : ∀ c k, ofDecimal false c k = ofDecimal false digits power → width digits ≤ width c
  distance_le : ∀ c k, ofDecimal false c k = ofDecimal false digits power →
    width c = width digits →
      |magnitude digits power - (ofDecimal false digits power).value| ≤
        |magnitude c k - (ofDecimal false digits power).value|
  magnitude_le : ∀ c k, ofDecimal false c k = ofDecimal false digits power →
    width c = width digits →
      |magnitude c k - (ofDecimal false digits power).value| =
        |magnitude digits power - (ofDecimal false digits power).value| →
      magnitude c k ≤ magnitude digits power

theorem ofDecimal_zero (power : Int) : ofDecimal false 0 power = .finite false 0 minExponent := rfl

theorem isShortest_iff_best (h : ofDecimal false digits power = .finite false mantissa exponent)
    (h0 : 0 < mantissa) : IsShortest digits power ↔ Best mantissa exponent digits power := by
  have hpos {c : Nat} {k : Int} (hc : ofDecimal false c k = .finite false mantissa exponent) :
      0 < c := by
    rw [Nat.pos_iff_ne_zero]
    rintro rfl
    rw [ofDecimal_zero] at hc
    injection hc with _ hm
    omega
  obtain ⟨hnorm, hmax, hr⟩ := (ofDecimal_eq_finite_iff (hpos h) h0).mp h
  have hvalue : (ofDecimal false digits power).value = mantissa * 2 ^ exponent := by
    rw [h]
    exact one_mul _
  have hread {c : Nat} {k : Int} (hc : 0 < c) : ofDecimal false c k = ofDecimal false digits power ↔
      RoundsTo mantissa exponent (magnitude c k) := by
    rw [h, ofDecimal_eq_finite_iff hc h0]
    exact ⟨fun h => h.2.2, fun h => ⟨hnorm, hmax, h⟩⟩
  constructor
  · intro hs
    refine ⟨hpos h, hr, fun c k hc hck => hs.width_le c k ((hread hc).mpr hck), ?_⟩
    intro c k hc hck hle
    have hck := (hread hc).mpr hck
    have hw := Nat.le_antisymm hle (hs.width_le c k hck)
    have hdist := hs.distance_le c k hck hw
    have htie := hs.magnitude_le c k hck hw
    rw [hvalue] at hdist htie
    exact ⟨hdist, fun heq => htie heq.symm⟩
  · intro hb
    have hroundsTo {c : Nat} {k : Int}
        (hck : ofDecimal false c k = ofDecimal false digits power) :
        0 < c ∧ RoundsTo mantissa exponent (magnitude c k) := by
      have hc := hpos (hck.trans h)
      exact ⟨hc, (hread hc).mp hck⟩
    refine ⟨fun c k hck => ?_, fun c k hck hw => ?_, fun c k hck hw heq => ?_⟩
    · exact hb.width_le c k (hroundsTo hck).1 (hroundsTo hck).2
    · rw [hvalue]
      exact (hb.near c k (hroundsTo hck).1 (hroundsTo hck).2 hw.le).1
    · rw [hvalue] at heq
      exact (hb.near c k (hroundsTo hck).1 (hroundsTo hck).2 hw.le).2 heq.symm

/-- A decimal too small to be told from zero is not the shortest: zero is. -/
theorem not_isShortest_of_zero (h : ofDecimal false digits power = .finite false 0 exponent)
    (h0 : 0 < digits) : ¬ IsShortest digits power := by
  obtain rfl := (normalized_of_ofDecimal_eq h).1.full.resolve_left (by decide)
  intro hs
  have hzero : ofDecimal false 0 0 = ofDecimal false digits power := by rw [h, ofDecimal_zero]
  have hw : width 0 = width digits :=
    Nat.le_antisymm (width_pos digits) (hs.width_le 0 0 hzero)
  have hdist := hs.distance_le 0 0 hzero hw
  have hvalue : (ofDecimal false digits power).value = 0 := by
    rw [h, value]
    push_cast
    ring
  have hmag := magnitude_pos h0 power
  rw [hvalue, sub_zero, sub_zero, abs_of_pos hmag] at hdist
  rw [magnitude_zero, abs_zero] at hdist
  exact absurd hmag hdist.not_gt

end Binary64

end LivePreview.Decimal
