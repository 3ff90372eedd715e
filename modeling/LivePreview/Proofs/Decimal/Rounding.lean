import LivePreview.Decimal.Binary64
import Mathlib

/-!
# Rounding

Around every number lie those that are rounded to it: half a unit of its last digit in either
direction, a quarter below where the numbers begin to lie closer together. A fraction is read as the
number around which it lies.
-/
namespace LivePreview.Decimal

/-! ### Scaling -/

variable {base n d : Nat}

theorem scale_pos (hb : 0 < base) (hd : 0 < d) (e : Int) : 0 < (scale base n d e).2 := by
  unfold scale
  split
  · exact hd
  · exact Nat.mul_pos hd (Nat.pow_pos hb)

theorem div_scale (base n d : Nat) (e : Int) :
    ((scale base n d e).1 : ℚ) / (scale base n d e).2 = (n : ℚ) / d * (base : ℚ) ^ e := by
  unfold scale
  split
  · rename_i he
    obtain ⟨k, rfl⟩ := Int.eq_ofNat_of_zero_le he
    simp [mul_div_right_comm]
  · rename_i he
    obtain ⟨k, hk⟩ := Int.eq_ofNat_of_zero_le (show 0 ≤ -e by omega)
    obtain rfl : e = -k := by omega
    simp [div_eq_mul_inv, mul_comm, mul_left_comm]

/-! ### Logarithms -/

theorem zpow_le_div {a b : Nat} (hb : 1 < base) (hn : base ^ a ≤ n) (hd : d < base ^ (b + 1))
    (hd0 : 0 < d) : (base : ℚ) ^ ((a : Int) - b - 1) ≤ n / d := by
  have hbase : (0 : ℚ) < base := by exact_mod_cast Nat.lt_of_succ_lt hb
  have hd' : (0 : ℚ) < d := by exact_mod_cast hd0
  rw [le_div_iff₀ hd']
  calc (base : ℚ) ^ ((a : Int) - b - 1) * d
      ≤ (base : ℚ) ^ ((a : Int) - b - 1) * (base : ℚ) ^ ((b : Int) + 1) := by
        gcongr
        exact_mod_cast hd.le
    _ = (base : ℚ) ^ a := by
        rw [← zpow_add₀ hbase.ne', ← zpow_natCast]
        congr 1
        omega
    _ ≤ n := by exact_mod_cast hn

theorem div_lt_zpow {a b : Nat} (hb : 1 < base) (hn : n < base ^ (a + 1)) (hd : base ^ b ≤ d) :
    (n : ℚ) / d < (base : ℚ) ^ ((a : Int) - b + 1) := by
  have hbase : (0 : ℚ) < base := by exact_mod_cast Nat.lt_of_succ_lt hb
  have hd' : (0 : ℚ) < d := by exact_mod_cast (Nat.pow_pos (Nat.lt_of_succ_lt hb)).trans_le hd
  rw [div_lt_iff₀ hd']
  calc (n : ℚ) < (base : ℚ) ^ (a + 1) := by exact_mod_cast hn
    _ = (base : ℚ) ^ ((a : Int) - b + 1) * (base : ℚ) ^ b := by
        rw [← zpow_natCast, ← zpow_natCast, ← zpow_add₀ hbase.ne']
        congr 1
        push_cast
        omega
    _ ≤ (base : ℚ) ^ ((a : Int) - b + 1) * d := by
        gcongr
        exact_mod_cast hd

theorem reaches_iff (hb : 1 < base) (hn : 0 < n) (hd : 0 < d) (e : Int) :
    (scale base n d (-e)).2 ≤ (scale base n d (-e)).1 ↔ e ≤ Int.log base ((n : ℚ) / d) := by
  have hb0 := Nat.lt_of_succ_lt hb
  have hpos : (0 : ℚ) < (scale base n d (-e)).2 := by exact_mod_cast scale_pos hb0 hd (-e)
  have hx : (0 : ℚ) < (n : ℚ) / d := by positivity
  have hp : (0 : ℚ) < (base : ℚ) ^ e := by positivity
  rw [← Int.zpow_le_iff_le_log hb hx, ← Nat.cast_le (α := ℚ), ← one_le_div hpos, div_scale,
    zpow_neg, ← div_eq_mul_inv, one_le_div hp]

/-- The guess is right, or one or two too large. -/
theorem floorLog_eq {a b : Nat} (hb : 1 < base) (hn : base ^ a ≤ n) (hn' : n < base ^ (a + 1))
    (hd : base ^ b ≤ d) (hd' : d < base ^ (b + 1)) :
    floorLog base n d (a - b + 1) = Int.log base ((n : ℚ) / d) := by
  have hn0 : 0 < n := (Nat.pow_pos (Nat.lt_of_succ_lt hb)).trans_le hn
  have hd0 : 0 < d := (Nat.pow_pos (Nat.lt_of_succ_lt hb)).trans_le hd
  have hx : (0 : ℚ) < (n : ℚ) / d := by positivity
  have hlow := (Int.zpow_le_iff_le_log hb hx).mp (zpow_le_div hb hn hd' hd0)
  have hhigh := (Int.lt_zpow_iff_log_lt hb hx).mp (div_lt_zpow hb hn' hd)
  unfold floorLog
  simp only [decide_eq_true_eq, reaches_iff hb hn0 hd0]
  split
  · omega
  · split
    · omega
    · omega

/-! ### Intervals -/

/-- What lies between two bounds. -/
def Within (closed : Bool) (low high x : ℚ) : Prop :=
  if closed then low ≤ x ∧ x ≤ high else low < x ∧ x < high

variable {closed : Bool} {low high x y p : ℚ}

theorem Within.le (h : Within closed low high x) : low ≤ x ∧ x ≤ high := by
  unfold Within at h
  split at h
  · exact h
  · exact ⟨h.1.le, h.2.le⟩

theorem Within.of_lt (hl : low < x) (hh : x < high) : Within closed low high x := by
  unfold Within
  split
  · exact ⟨hl.le, hh.le⟩
  · exact ⟨hl, hh⟩

theorem Within.of_le (hc : closed = true) (hl : low ≤ x) (hh : x ≤ high) :
    Within closed low high x := by
  unfold Within
  rw [if_pos hc]
  exact ⟨hl, hh⟩

theorem Within.of_le_of_le {z : ℚ} (hx : Within closed low high x) (hz : Within closed low high z)
    (hxy : x ≤ y) (hyz : y ≤ z) : Within closed low high y := by
  unfold Within at hx hz ⊢
  split
  · rename_i hc
    rw [if_pos hc] at hx hz
    exact ⟨hx.1.trans hxy, hyz.trans hz.2⟩
  · rename_i hc
    rw [if_neg hc] at hx hz
    exact ⟨hx.1.trans_le hxy, hyz.trans_lt hz.2⟩

theorem within_mul_iff (hp : 0 < p) :
    Within closed (low * p) (high * p) (x * p) ↔ Within closed low high x := by
  unfold Within
  split
  · rw [mul_le_mul_iff_left₀ hp, mul_le_mul_iff_left₀ hp]
  · rw [mul_lt_mul_iff_left₀ hp, mul_lt_mul_iff_left₀ hp]

/-! ### Integers -/

/-- The integer is the one that is nearest to the number; a half goes to the even one. -/
def IsNearest (q : Nat) (y : ℚ) : Prop :=
  Within (q % 2 = 0) (q - 1 / 2) (q + 1 / 2) y

theorem isNearest_of_lt {q : Nat} (hl : (q : ℚ) - 1 / 2 < y) (hh : y < q + 1 / 2) : IsNearest q y :=
  .of_lt hl hh

theorem isNearest_of_even {q : Nat} (hq : q % 2 = 0) (hl : (q : ℚ) - 1 / 2 ≤ y)
    (hh : y ≤ q + 1 / 2) : IsNearest q y :=
  .of_le (decide_eq_true hq) hl hh

theorem div_eq_add (hd : 0 < d) (n : Nat) :
    (n : ℚ) / d = ((n / d : Nat) : ℚ) + ((n % d : Nat) : ℚ) / d := by
  have hd' : (d : ℚ) ≠ 0 := by exact_mod_cast hd.ne'
  have hn : (n : ℚ) = d * ((n / d : Nat) : ℚ) + ((n % d : Nat) : ℚ) := by
    exact_mod_cast (Nat.div_add_mod n d).symm
  rw [hn, add_div, mul_div_cancel_left₀ _ hd']

theorem mod_div_lt_half_iff (hd : 0 < d) :
    ((n % d : Nat) : ℚ) / d < 1 / 2 ↔ 2 * (n % d) < d := by
  rw [div_lt_div_iff₀ (by exact_mod_cast hd) two_pos, one_mul, mul_comm]
  exact_mod_cast Iff.rfl

theorem half_lt_mod_div_iff (hd : 0 < d) :
    1 / 2 < ((n % d : Nat) : ℚ) / d ↔ 2 * (n % d) > d := by
  rw [div_lt_div_iff₀ two_pos (by exact_mod_cast hd), one_mul, mul_comm]
  exact_mod_cast Iff.rfl

theorem isNearest_roundHalfEven (hd : 0 < d) (n : Nat) :
    IsNearest (roundHalfEven n d) ((n : ℚ) / d) := by
  have hr0 : (0 : ℚ) ≤ ((n % d : Nat) : ℚ) / d := by positivity
  have hr1 : ((n % d : Nat) : ℚ) / d < 1 := by
    rw [div_lt_one (by exact_mod_cast hd)]
    exact_mod_cast Nat.mod_lt n hd
  rw [div_eq_add hd]
  unfold roundHalfEven
  dsimp only
  split
  · rename_i h
    have := (mod_div_lt_half_iff hd).mpr h
    exact isNearest_of_lt (by linarith) (by linarith)
  · split
    · rename_i h
      have := (half_lt_mod_div_iff hd).mpr h
      exact isNearest_of_lt (by push_cast; linarith) (by push_cast; linarith)
    · rename_i h h'
      have hle := not_lt.mp (mt (mod_div_lt_half_iff hd).mp h)
      have hge := not_lt.mp (mt (half_lt_mod_div_iff hd).mp h')
      -- An odd quotient is left for the next integer, an even one stays.
      rcases Nat.mod_two_eq_zero_or_one (n / d) with hq | hq
      · rw [hq, Nat.add_zero]
        exact isNearest_of_even hq (by linarith) (by linarith)
      · rw [hq]
        exact isNearest_of_even (by omega) (by push_cast; linarith) (by push_cast; linarith)

theorem IsNearest.unique {q q' : Nat} (h : IsNearest q y) (h' : IsNearest q' y) : q = q' := by
  -- Two neighbours share half an integer at most, and only one of them is even.
  have key {a b : Nat} (ha : IsNearest a y) (hb : IsNearest b y) : ¬ a < b := by
    intro hab
    have hle : (a : ℚ) + 1 ≤ b := by exact_mod_cast hab
    have hya := ha.le
    have hyb := hb.le
    have hb1 : b = a + 1 := by
      have : (b : ℚ) ≤ a + 1 := by linarith
      have : b ≤ a + 1 := by exact_mod_cast this
      omega
    unfold IsNearest Within at ha hb
    split at ha
    · split at hb
      · rename_i h2 h2'
        have := of_decide_eq_true h2
        have := of_decide_eq_true h2'
        omega
      · linarith
    · linarith
  have := key h h'
  have := key h' h
  omega

/-! ### Numbers -/

namespace Binary64

variable {mantissa : Nat} {exponent : Int}

/-- A mantissa has all its digits unless the exponent is the smallest. -/
structure Normalized (mantissa : Nat) (exponent : Int) : Prop where
  lt : mantissa < 2 ^ 53
  min_le : minExponent ≤ exponent
  full : 2 ^ 52 ≤ mantissa ∨ exponent = minExponent

/-- How far numbers below this one are rounded to it, in units of its last digit: half as far where
the numbers below lie closer together. -/
def gapBelow (mantissa : Nat) (exponent : Int) : ℚ :=
  if mantissa = 2 ^ 52 ∧ minExponent < exponent then 1 / 4 else 1 / 2

/-- The number is rounded to `mantissa * 2 ^ exponent`. -/
def RoundsTo (mantissa : Nat) (exponent : Int) (x : ℚ) : Prop :=
  Within (mantissa % 2 = 0) ((mantissa - gapBelow mantissa exponent) * 2 ^ exponent)
    ((mantissa + 1 / 2) * 2 ^ exponent) x

theorem gapBelow_pos (mantissa : Nat) (exponent : Int) : 1 / 4 ≤ gapBelow mantissa exponent := by
  unfold gapBelow
  split <;> norm_num

theorem gapBelow_le (mantissa : Nat) (exponent : Int) : gapBelow mantissa exponent ≤ 1 / 2 := by
  unfold gapBelow
  split <;> norm_num

theorem roundsTo_iff : RoundsTo mantissa exponent x ↔
    Within (mantissa % 2 = 0) (mantissa - gapBelow mantissa exponent) (mantissa + 1 / 2)
      (x / 2 ^ exponent) := by
  have hp : (0 : ℚ) < 2 ^ exponent := by positivity
  rw [← within_mul_iff hp, div_mul_cancel₀ _ hp.ne', RoundsTo]

/-- The exponent with which a mantissa has all its digits. -/
def unitExponent (x : ℚ) : Int := max (Int.log 2 x - 52) minExponent

theorem unitExponent_eq_iff (hx : 0 < x) : unitExponent x = exponent ↔
    minExponent ≤ exponent ∧ x / 2 ^ exponent < 2 ^ 53 ∧
      (exponent = minExponent ∨ 2 ^ 52 ≤ x / 2 ^ exponent) := by
  have hp : (0 : ℚ) < 2 ^ exponent := by positivity
  have hlow : (2 : ℚ) ^ 52 ≤ x / 2 ^ exponent ↔ 52 + exponent ≤ Int.log 2 x := by
    rw [← Int.zpow_le_iff_le_log one_lt_two hx, le_div_iff₀ hp, Nat.cast_ofNat,
      zpow_add₀ two_ne_zero]
    exact Iff.rfl
  have hhigh : x / 2 ^ exponent < (2 : ℚ) ^ 53 ↔ Int.log 2 x < 53 + exponent := by
    rw [← Int.lt_zpow_iff_log_lt one_lt_two hx, div_lt_iff₀ hp, Nat.cast_ofNat,
      zpow_add₀ two_ne_zero]
    exact Iff.rfl
  rw [hlow, hhigh]
  unfold unitExponent
  omega

theorem RoundsTo.isNearest (h : RoundsTo mantissa exponent x) :
    IsNearest mantissa (x / 2 ^ exponent) := by
  have hgap := gapBelow_le mantissa exponent
  rw [roundsTo_iff] at h
  unfold IsNearest Within
  unfold Within at h
  split
  · rename_i hc
    rw [if_pos hc] at h
    exact ⟨by linarith [h.1], h.2⟩
  · rename_i hc
    rw [if_neg hc] at h
    exact ⟨by linarith [h.1], h.2⟩

/-- Below the smallest mantissa with all digits the next smaller exponent counts; there the number
is rounded up to a mantissa with a digit too many. -/
theorem RoundsTo.carry (h : RoundsTo mantissa exponent x) (hx : 0 < x)
    (hm : Normalized mantissa exponent) (hne : exponent ≠ minExponent)
    (hbelow : x / 2 ^ exponent < 2 ^ 52) :
    mantissa = 2 ^ 52 ∧ unitExponent x + 1 = exponent ∧
      IsNearest (2 ^ 53) (x / 2 ^ unitExponent x) := by
  have hmin := hm.min_le
  have hgap := gapBelow_le mantissa exponent
  have hle := (roundsTo_iff.mp h).le
  have hge : (2 : ℚ) ^ 52 ≤ mantissa := by exact_mod_cast hm.full.resolve_right hne
  have heq : mantissa = 2 ^ 52 := by
    have : (mantissa : ℚ) < 2 ^ 52 + 1 := by linarith
    have : mantissa < 2 ^ 52 + 1 := by exact_mod_cast this
    have := hm.full.resolve_right hne
    omega
  have hgap' : gapBelow mantissa exponent = 1 / 4 := if_pos ⟨heq, by omega⟩
  have htwice : x / 2 ^ (exponent - 1) = 2 * (x / 2 ^ exponent) := by
    rw [zpow_sub_one₀ two_ne_zero]
    field_simp
  have hprev : unitExponent x = exponent - 1 := by
    refine (unitExponent_eq_iff hx).mpr ⟨by omega, ?_, Or.inr ?_⟩
    · rw [htwice]
      linarith
    · rw [htwice]
      linarith
  refine ⟨heq, by omega, ?_⟩
  rw [hprev, htwice]
  rw [hgap'] at hle
  refine isNearest_of_even rfl ?_ ?_
  · push_cast
    linarith
  · push_cast
    linarith

theorem roundsTo_of_isNearest (hx : 0 < x)
    (h : IsNearest mantissa (x / 2 ^ unitExponent x)) : RoundsTo mantissa (unitExponent x) x := by
  obtain ⟨-, -, hlow⟩ := (unitExponent_eq_iff hx).mp rfl
  rw [roundsTo_iff]
  by_cases hg : mantissa = 2 ^ 52 ∧ minExponent < unitExponent x
  · obtain ⟨rfl, hgt⟩ := hg
    have hfull := hlow.resolve_left hgt.ne'
    have hgap := gapBelow_pos (2 ^ 52) (unitExponent x)
    refine .of_le rfl ?_ h.le.2
    push_cast
    linarith
  · have hgap : gapBelow mantissa (unitExponent x) = 1 / 2 := if_neg hg
    rw [hgap]
    exact h

theorem roundsTo_of_carry (hx : 0 < x) (h : IsNearest (2 ^ 53) (x / 2 ^ unitExponent x)) :
    RoundsTo (2 ^ 52) (unitExponent x + 1) x := by
  obtain ⟨hmin, hhigh, -⟩ := (unitExponent_eq_iff hx).mp rfl
  have hhalf : x / 2 ^ (unitExponent x + 1) = x / 2 ^ unitExponent x / 2 := by
    rw [zpow_add_one₀ two_ne_zero, div_div]
  have hgap : gapBelow (2 ^ 52) (unitExponent x + 1) = 1 / 4 := if_pos ⟨rfl, by omega⟩
  have hge := h.le.1
  push_cast at hge
  rw [roundsTo_iff, hgap, hhalf]
  refine .of_le rfl ?_ ?_
  · push_cast
    linarith
  · push_cast
    linarith

theorem normalized_of_isNearest (hx : 0 < x) (h : IsNearest mantissa (x / 2 ^ unitExponent x))
    (hne : mantissa ≠ 2 ^ 53) : Normalized mantissa (unitExponent x) := by
  obtain ⟨hmin, hhigh, hlow⟩ := (unitExponent_eq_iff hx).mp rfl
  have hlt : mantissa < 2 ^ 53 + 1 := by
    have : (mantissa : ℚ) < 2 ^ 53 + 1 := by linarith [h.le.1]
    exact_mod_cast this
  refine ⟨by omega, hmin, hlow.symm.imp_left fun hge => ?_⟩
  have hgt : 2 ^ 52 < mantissa + 1 := by
    have : (2 : ℚ) ^ 52 < mantissa + 1 := by linarith [h.le.2]
    exact_mod_cast this
  omega

theorem normalized_carry (x : ℚ) : Normalized (2 ^ 52) (unitExponent x + 1) := by
  have hmin : minExponent ≤ unitExponent x := le_max_right _ _
  exact ⟨by decide, by omega, Or.inl le_rfl⟩

/-- A number is rounded to the mantissa that is nearest in units of the last digit, and to the next
power of two when that mantissa has a digit too many. -/
theorem roundsTo_iff_isNearest (hx : 0 < x) (hm : Normalized mantissa exponent) :
    RoundsTo mantissa exponent x ↔
      (unitExponent x = exponent ∧ IsNearest mantissa (x / 2 ^ exponent)) ∨
        (mantissa = 2 ^ 52 ∧ unitExponent x + 1 = exponent ∧
          IsNearest (2 ^ 53) (x / 2 ^ unitExponent x)) := by
  constructor
  · intro h
    have hlt : (mantissa : ℚ) + 1 ≤ 2 ^ 53 := by exact_mod_cast hm.lt
    have hle := (roundsTo_iff.mp h).le
    by_cases hs : exponent = minExponent ∨ (2 : ℚ) ^ 52 ≤ x / 2 ^ exponent
    · exact Or.inl ⟨(unitExponent_eq_iff hx).mpr ⟨hm.min_le, by linarith, hs⟩, h.isNearest⟩
    · obtain ⟨hne, hbelow⟩ := not_or.mp hs
      exact Or.inr (h.carry hx hm hne (not_le.mp hbelow))
  · rintro (⟨rfl, h⟩ | ⟨rfl, rfl, h⟩)
    · exact roundsTo_of_isNearest hx h
    · exact roundsTo_of_carry hx h

variable {negative : Bool}

theorem ofFraction_eq (negative : Bool) (hn : 0 < n) (hd : 0 < d) :
    ∃ q, IsNearest q ((n : ℚ) / d / 2 ^ unitExponent ((n : ℚ) / d)) ∧
      ofFraction negative n d =
        if q = 2 ^ 53 then
          if unitExponent ((n : ℚ) / d) + 1 > maxExponent then .infinite negative
          else .finite negative (2 ^ 52) (unitExponent ((n : ℚ) / d) + 1)
        else
          if unitExponent ((n : ℚ) / d) > maxExponent then .infinite negative
          else .finite negative q (unitExponent ((n : ℚ) / d)) := by
  have hlog := floorLog_eq one_lt_two (Nat.log2_self_le hn.ne') Nat.lt_log2_self
    (Nat.log2_self_le hd.ne') Nat.lt_log2_self
  have hunit : max (floorLog 2 n d (n.log2 - d.log2 + 1) - (precision - 1)) minExponent =
      unitExponent ((n : ℚ) / d) := by
    rw [hlog]
    rfl
  refine ⟨roundHalfEven (scale 2 n d (-unitExponent ((n : ℚ) / d))).1
    (scale 2 n d (-unitExponent ((n : ℚ) / d))).2, ?_, ?_⟩
  · have h := isNearest_roundHalfEven (scale_pos (n := n) two_pos hd (-unitExponent ((n : ℚ) / d)))
      (scale 2 n d (-unitExponent ((n : ℚ) / d))).1
    rwa [div_scale, zpow_neg, ← div_eq_mul_inv] at h
  · unfold ofFraction
    dsimp only
    rw [hunit, show 1 <<< precision = 2 ^ 53 by decide]
    split
    · rfl
    · rfl

/-- A fraction is read as the number it is rounded to. -/
theorem ofFraction_eq_finite_iff (hn : 0 < n) (hd : 0 < d) :
    ofFraction negative n d = .finite negative mantissa exponent ↔
      Normalized mantissa exponent ∧ exponent ≤ maxExponent ∧
        RoundsTo mantissa exponent ((n : ℚ) / d) := by
  have hx : (0 : ℚ) < (n : ℚ) / d := by positivity
  obtain ⟨q, hq, heq⟩ := ofFraction_eq negative hn hd
  rw [heq]
  constructor
  · intro h
    split at h
    · rename_i hcarry
      subst hcarry
      split at h
      · cases h
      · obtain ⟨-, rfl, rfl⟩ := Binary64.finite.inj h
        exact ⟨normalized_carry _, by omega, roundsTo_of_carry hx hq⟩
    · rename_i hne
      split at h
      · cases h
      · obtain ⟨-, rfl, rfl⟩ := Binary64.finite.inj h
        exact ⟨normalized_of_isNearest hx hq hne, by omega, roundsTo_of_isNearest hx hq⟩
  · rintro ⟨hnorm, hmax, h⟩
    rcases (roundsTo_iff_isNearest hx hnorm).mp h with ⟨rfl, hm⟩ | ⟨rfl, rfl, hm⟩
    · obtain rfl := hq.unique hm
      rw [if_neg hnorm.lt.ne, if_neg (by omega)]
    · obtain rfl := hq.unique hm
      rw [if_pos rfl, if_neg (by omega)]

theorem exists_ofFraction_eq (hn : 0 < n) (hd : 0 < d) (hx : (n : ℚ) / d < 2 ^ 64) :
    ∃ mantissa exponent, ofFraction negative n d = .finite negative mantissa exponent := by
  have hx0 : (0 : ℚ) < (n : ℚ) / d := by positivity
  have hlog : Int.log 2 ((n : ℚ) / d) < 64 :=
    (Int.lt_zpow_iff_log_lt one_lt_two hx0).mp (by exact_mod_cast hx)
  have hunit : unitExponent ((n : ℚ) / d) + 1 ≤ maxExponent := by
    unfold unitExponent minExponent maxExponent
    omega
  obtain ⟨q, -, heq⟩ := ofFraction_eq negative hn hd
  rw [heq]
  split
  · exact ⟨_, _, if_neg (by omega)⟩
  · exact ⟨_, _, if_neg (by omega)⟩

/-! ### Decimals -/

/-- A decimal as a number. -/
def magnitude (digits : Nat) (power : Int) : ℚ := digits * 10 ^ power

variable {digits : Nat} {power : Int}

theorem magnitude_zero (power : Int) : magnitude 0 power = 0 := by
  rw [magnitude, Nat.cast_zero, zero_mul]

theorem magnitude_pos (hc : 0 < digits) (power : Int) : 0 < magnitude digits power := by
  unfold magnitude
  positivity

theorem RoundsTo.lt_zpow (h : RoundsTo mantissa exponent x) (hm : Normalized mantissa exponent) :
    x < 2 ^ (exponent + 53) := by
  have hlt : (mantissa : ℚ) + 1 ≤ 2 ^ 53 := by exact_mod_cast hm.lt
  calc x ≤ (mantissa + 1 / 2) * 2 ^ exponent := h.le.2
    _ < 2 ^ 53 * 2 ^ exponent := by
        gcongr
        linarith
    _ = 2 ^ (exponent + 53) := by
        rw [zpow_add₀ two_ne_zero, mul_comm]
        rfl

theorem RoundsTo.zpow_le (h : RoundsTo mantissa exponent x) (hm : Normalized mantissa exponent)
    (h0 : 0 < mantissa) : 2 ^ (-1075 : Int) ≤ x := by
  have hge : (1 : ℚ) ≤ mantissa := by exact_mod_cast h0
  have hgap := gapBelow_le mantissa exponent
  calc (2 : ℚ) ^ (-1075 : Int) = 1 / 2 * 2 ^ minExponent := by
        rw [show (-1075 : Int) = minExponent - 1 by decide, zpow_sub_one₀ two_ne_zero]
        ring
    _ ≤ (mantissa - gapBelow mantissa exponent) * 2 ^ exponent := by
        have hmin := zpow_le_zpow_right₀ (one_le_two (α := ℚ)) hm.min_le
        gcongr
        · linarith
        · linarith
    _ ≤ x := h.le.1

theorem zpow_le_ten (hp : 0 ≤ power) : (2 : ℚ) ^ (3 * power) ≤ 10 ^ power := by
  rw [zpow_mul]
  exact zpow_le_zpow_left₀ hp (by norm_num) (by norm_num)

theorem ten_le_zpow (hp : power ≤ 0) : (10 : ℚ) ^ power ≤ 2 ^ (3 * power) := by
  have h := zpow_le_ten (show 0 ≤ -power by omega)
  rw [mul_neg, zpow_neg, zpow_neg] at h
  exact (inv_le_inv₀ (by positivity) (by positivity)).mp h

theorem lt_magnitude (hc : 0 < digits) (hp : 400 < power) :
    2 ^ (1024 : Int) < magnitude digits power := by
  have hge : (1 : ℚ) ≤ digits := by exact_mod_cast hc
  calc (2 : ℚ) ^ (1024 : Int) < 2 ^ (3 * power) := zpow_lt_zpow_right₀ one_lt_two (by omega)
    _ ≤ 10 ^ power := zpow_le_ten (by omega)
    _ ≤ magnitude digits power := le_mul_of_one_le_left (by positivity) hge

theorem magnitude_lt (hp : power + (digits.log2 : Int) < -400) :
    magnitude digits power < 2 ^ (-1075 : Int) := by
  have hlt : (digits : ℚ) < 2 ^ ((digits.log2 : Int) + 1) := by
    exact_mod_cast Nat.lt_log2_self (n := digits)
  calc magnitude digits power < 2 ^ ((digits.log2 : Int) + 1) * 10 ^ power := by
        unfold magnitude
        gcongr
    _ ≤ 2 ^ ((digits.log2 : Int) + 1) * 2 ^ (3 * power) := by
        have := ten_le_zpow (show power ≤ 0 by omega)
        gcongr
    _ = 2 ^ ((digits.log2 : Int) + 1 + 3 * power) := (zpow_add₀ two_ne_zero _ _).symm
    _ < 2 ^ (-1075 : Int) := zpow_lt_zpow_right₀ one_lt_two (by omega)

theorem scale_ten_pos (hc : 0 < digits) (power : Int) : 0 < (scale 10 digits 1 power).1 := by
  unfold scale
  split
  · exact Nat.mul_pos hc (Nat.pow_pos (by decide))
  · exact hc

theorem div_scale_ten (digits : Nat) (power : Int) :
    ((scale 10 digits 1 power).1 : ℚ) / (scale 10 digits 1 power).2 = magnitude digits power := by
  rw [div_scale, magnitude]
  push_cast
  rw [div_one]

/-- A decimal is read as the number it is rounded to. Where the power alone decides, no number but
zero is near. -/
theorem ofDecimal_eq_finite_iff (hc : 0 < digits) (h0 : 0 < mantissa) :
    ofDecimal negative digits power = .finite negative mantissa exponent ↔
      Normalized mantissa exponent ∧ exponent ≤ maxExponent ∧
        RoundsTo mantissa exponent (magnitude digits power) := by
  unfold ofDecimal
  dsimp only
  rw [if_neg hc.ne']
  split
  · rename_i hp
    refine ⟨nofun, fun ⟨hm, hmax, h⟩ => absurd (lt_magnitude hc hp) (not_lt.mpr ?_)⟩
    refine (h.lt_zpow hm).le.trans (zpow_le_zpow_right₀ one_le_two ?_)
    unfold maxExponent at hmax
    omega
  · split
    · rename_i hp
      refine ⟨fun h => ?_, fun ⟨hm, _, h⟩ => absurd (magnitude_lt hp) (h.zpow_le hm h0).not_gt⟩
      injection h with _ hm
      omega
    · rw [ofFraction_eq_finite_iff (scale_ten_pos hc power)
        (scale_pos (by decide) one_pos power), div_scale_ten]

/-- What is read is in range with all its digits, and not much smaller than the decimal. -/
theorem normalized_of_ofDecimal_eq
    (h : ofDecimal negative digits power = .finite negative mantissa exponent) :
    Normalized mantissa exponent ∧ exponent ≤ maxExponent ∧
      magnitude digits power < 2 ^ (exponent + 53) := by
  have hzero : Normalized 0 minExponent := ⟨by decide, le_rfl, Or.inr rfl⟩
  unfold ofDecimal at h
  dsimp only at h
  split at h
  · rename_i hc
    obtain ⟨-, rfl, rfl⟩ := Binary64.finite.inj h
    rw [hc, magnitude_zero]
    exact ⟨hzero, by decide, by positivity⟩
  · rename_i hc
    split at h
    · cases h
    · split at h
      · rename_i hp
        obtain ⟨-, rfl, rfl⟩ := Binary64.finite.inj h
        refine ⟨hzero, by decide, (magnitude_lt hp).trans_le (zpow_le_zpow_right₀ one_le_two ?_)⟩
        decide
      · obtain ⟨hm, hmax, hr⟩ := (ofFraction_eq_finite_iff
          (scale_ten_pos (Nat.pos_of_ne_zero hc) power)
          (scale_pos (by decide) one_pos power)).mp h
        rw [div_scale_ten] at hr
        exact ⟨hm, hmax, hr.lt_zpow hm⟩

theorem exists_ofDecimal_eq (negative : Bool) (hx : magnitude digits power < 2 ^ 64) :
    ∃ mantissa exponent,
      ofDecimal negative digits power = .finite negative mantissa exponent := by
  unfold ofDecimal
  dsimp only
  split
  · exact ⟨_, _, rfl⟩
  · rename_i hc
    have hc := Nat.pos_of_ne_zero hc
    split
    · rename_i hp
      have hle : (2 : ℚ) ^ 64 ≤ 2 ^ (1024 : Int) := by
        rw [← zpow_natCast]
        exact zpow_le_zpow_right₀ one_le_two (by decide)
      exact absurd (lt_magnitude hc hp) (hx.le.trans hle).not_gt
    · split
      · exact ⟨_, _, rfl⟩
      · exact exists_ofFraction_eq (scale_ten_pos hc power) (scale_pos (by decide) one_pos power)
          (by rwa [div_scale_ten])

end Binary64

end LivePreview.Decimal
