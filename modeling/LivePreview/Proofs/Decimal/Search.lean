import LivePreview.Proofs.Decimal.Rounding

/-!
# The search for a decimal

Decimals with more and more digits are tried for a number. Only the two that enclose it matter: what
lies beyond them is further away, and when neither is rounded to the number, nothing of that length
is. So the decimal that is found has the fewest digits, and is the nearest of those with as few.
-/
namespace LivePreview.Decimal

/-- How many digits a natural number is written with. -/
def width (digits : Nat) : Nat := (Nat.toDigits 10 digits).length

theorem width_le_iff {digits count : Nat} (hc : 0 < count) :
    width digits ≤ count ↔ digits < 10 ^ count :=
  Nat.length_toDigits_le_iff (by decide) hc

theorem width_pos (digits : Nat) : 0 < width digits := Nat.length_toDigits_pos

theorem pow_width_le {digits : Nat} (h : 0 < digits) : 10 ^ (width digits - 1) ≤ digits := by
  by_cases h1 : width digits = 1
  · rw [h1]
    exact h
  · by_contra hlt
    have hpos := width_pos digits
    have : width digits ≤ width digits - 1 := (width_le_iff (by omega)).mpr (not_le.mp hlt)
    omega

theorem lt_pow_width (digits : Nat) : digits < 10 ^ width digits :=
  (width_le_iff (width_pos digits)).mp le_rfl

theorem width_mono {a b : Nat} (h : a ≤ b) : width a ≤ width b :=
  (width_le_iff (width_pos b)).mpr (h.trans_lt (lt_pow_width b))

theorem width_lt_mul_pow {digits j : Nat} (h : 0 < digits) (hj : 0 < j) :
    width digits < width (digits * 10 ^ j) := by
  have hpos := width_pos digits
  rw [← not_le, width_le_iff hpos, not_lt]
  calc 10 ^ width digits = 10 ^ (width digits - 1) * 10 := by
        rw [← Nat.pow_succ, Nat.succ_eq_add_one, Nat.sub_add_cancel hpos]
    _ ≤ digits * 10 ^ j := Nat.mul_le_mul (pow_width_le h) (Nat.le_self_pow hj.ne' 10)

namespace Binary64

variable {digits below count mantissa : Nat} {power exponent log : Int}

/-! ### Decimals of one length -/

theorem magnitude_lt_iff {a b : Nat} : magnitude a power < magnitude b power ↔ a < b := by
  have hp : (0 : ℚ) < 10 ^ power := by positivity
  unfold magnitude
  rw [mul_lt_mul_iff_left₀ hp, Nat.cast_lt]

theorem magnitude_le_iff {a b : Nat} : magnitude a power ≤ magnitude b power ↔ a ≤ b := by
  rw [← not_lt, magnitude_lt_iff, not_lt]

theorem magnitude_mul_pow (digits : Nat) (power : Int) (j : Nat) :
    magnitude (digits * 10 ^ j) power = magnitude digits (power + j) := by
  unfold magnitude
  rw [zpow_add₀ (by norm_num)]
  push_cast
  rw [zpow_natCast]
  ring

/-- A decimal of no more digits lies on one side of the two neighbours of which the lower has all
the digits. -/
theorem magnitude_le_or_le (hcount : 0 < count) (hbelow : 10 ^ (count - 1) ≤ below)
    (hd : digits < 10 ^ count) (power power' : Int) :
    magnitude digits power' ≤ magnitude below power ∨
      magnitude (below + 1) power ≤ magnitude digits power' := by
  by_cases hp : power ≤ power'
  · obtain ⟨j, hj⟩ := Int.eq_ofNat_of_zero_le (show 0 ≤ power' - power by omega)
    obtain rfl : power' = power + j := by omega
    rw [← magnitude_mul_pow, magnitude_le_iff, magnitude_le_iff]
    omega
  · left
    obtain ⟨j, hj⟩ := Int.eq_ofNat_of_zero_le (show 0 ≤ power - power' by omega)
    obtain rfl : power = power' + j := by omega
    rw [← magnitude_mul_pow, magnitude_le_iff]
    calc digits ≤ 10 ^ count := hd.le
      _ = 10 ^ (count - 1) * 10 := by
          rw [← Nat.pow_succ, Nat.succ_eq_add_one, Nat.sub_add_cancel hcount]
      _ ≤ below * 10 ^ j := Nat.mul_le_mul hbelow (Nat.le_self_pow (by omega) 10)

/-! ### The nearer neighbour -/

variable {low high v r z : ℚ}

/-- Of two neighbours the nearer one, or the higher if they are equally near. -/
structure Nearer (low high v r : ℚ) : Prop where
  enclosed : low ≤ v ∧ v < high
  eq : r = low ∧ v - low < high - v ∨ r = high ∧ high - v ≤ v - low

/-- No number beyond the neighbours is nearer, nor a greater one as near. -/
theorem Nearer.le (h : Nearer low high v r) (hz : z ≤ low ∨ high ≤ z) :
    |r - v| ≤ |z - v| ∧ (|r - v| = |z - v| → z ≤ r) := by
  obtain ⟨⟨hlow, hhigh⟩, heq⟩ := h
  have hbelow (h : z ≤ low) : |z - v| = v - z := by
    rw [abs_sub_comm, abs_of_nonneg (by linarith)]
  have habove (h : high ≤ z) : |z - v| = z - v := abs_of_nonneg (by linarith)
  rcases heq with ⟨rfl, hnear⟩ | ⟨rfl, hnear⟩
  · rw [abs_sub_comm r, abs_of_nonneg (show 0 ≤ v - r by linarith)]
    rcases hz with hz | hz
    · rw [hbelow hz]
      exact ⟨by linarith, fun _ => hz⟩
    · rw [habove hz]
      exact ⟨by linarith, fun h => by linarith⟩
  · rw [abs_of_nonneg (show 0 ≤ r - v by linarith)]
    rcases hz with hz | hz
    · rw [hbelow hz]
      exact ⟨by linarith, fun _ => by linarith⟩
    · rw [habove hz]
      exact ⟨by linarith, fun h => by linarith⟩

/-- When the nearer neighbour is left out, so is all that lies on its side. -/
theorem Nearer.le_further {closed : Bool} {a b : ℚ} (h : Nearer low high v r)
    (hv : Within closed a b v) (hr : ¬ Within closed a b r) (hz : Within closed a b z)
    (hside : z ≤ low ∨ high ≤ z) :
    |low + high - r - v| ≤ |z - v| ∧
      (|low + high - r - v| = |z - v| → z ≤ low + high - r) := by
  obtain ⟨⟨hlow, hhigh⟩, heq⟩ := h
  rcases heq with ⟨rfl, -⟩ | ⟨rfl, -⟩
  · have hz' : high ≤ z := hside.resolve_left fun hle => hr (hz.of_le_of_le hv hle hlow)
    rw [add_sub_cancel_left, abs_of_nonneg (show 0 ≤ high - v by linarith),
      abs_of_nonneg (show 0 ≤ z - v by linarith)]
    exact ⟨by linarith, fun h => by linarith⟩
  · have hz' : z ≤ low := hside.resolve_right fun hle => hr (hv.of_le_of_le hz hhigh.le hle)
    rw [add_sub_cancel_right, abs_sub_comm low, abs_of_nonneg (show 0 ≤ v - low by linarith),
      abs_sub_comm z, abs_of_nonneg (show 0 ≤ v - z by linarith)]
    exact ⟨by linarith, fun h => by linarith⟩

/-! ### Reading a decimal back -/

theorem cast_mul_le_mul_iff {a b c d : Nat} (hb : 0 < b) (hd : 0 < d) :
    a * d ≤ c * b ↔ (a : ℚ) / b ≤ (c : ℚ) / d := by
  rw [div_le_div_iff₀ (by exact_mod_cast hb) (by exact_mod_cast hd)]
  exact_mod_cast Iff.rfl

theorem cast_mul_lt_mul_iff {a b c d : Nat} (hb : 0 < b) (hd : 0 < d) :
    a * d < c * b ↔ (a : ℚ) / b < (c : ℚ) / d := by
  rw [div_lt_div_iff₀ (by exact_mod_cast hb) (by exact_mod_cast hd)]
  exact_mod_cast Iff.rfl

theorem reads_iff (h0 : 0 < mantissa) :
    reads mantissa exponent digits power = true ↔
      RoundsTo mantissa exponent (magnitude digits power) := by
  have hden := scale_pos (n := 1) (d := 4) two_pos (by decide) exponent
  have hq : 0 < (scale 10 digits 1 power).2 := scale_pos (by decide) one_pos power
  have hunit := div_scale 2 1 4 exponent
  have hlow : (((4 * mantissa - if mantissa = 2 ^ 52 && exponent > minExponent then 1 else 2) *
      (scale 2 1 4 exponent).1 : Nat) : ℚ) / (scale 2 1 4 exponent).2 =
      (mantissa - gapBelow mantissa exponent) * 2 ^ exponent := by
    rw [Nat.cast_mul, mul_div_assoc, hunit]
    unfold gapBelow
    split
    · rename_i h
      rw [if_pos (by simpa using h), Nat.cast_sub (by omega)]
      push_cast
      ring
    · rename_i h
      rw [if_neg (by simpa using h), Nat.cast_sub (by omega)]
      push_cast
      ring
  have hhigh : (((4 * mantissa + 2) * (scale 2 1 4 exponent).1 : Nat) : ℚ) /
      (scale 2 1 4 exponent).2 = (mantissa + 1 / 2) * 2 ^ exponent := by
    rw [Nat.cast_mul, mul_div_assoc, hunit]
    push_cast
    ring
  unfold reads interval RoundsTo Within
  dsimp only
  rw [show 1 <<< (precision - 1) = 2 ^ 52 by decide, ← hlow, ← hhigh, ← div_scale_ten]
  split
  · rw [Bool.and_eq_true, decide_eq_true_eq, decide_eq_true_eq, cast_mul_le_mul_iff hden hq,
      cast_mul_le_mul_iff hq hden]
  · rw [Bool.and_eq_true, decide_eq_true_eq, decide_eq_true_eq, cast_mul_lt_mul_iff hden hq,
      cast_mul_lt_mul_iff hq hden]

/-! ### The search -/

/-- The decimal is rounded to the number and has no more digits than any other that is; of those
with as few digits it is the nearest, and the greatest of those as near. -/
structure Best (mantissa : Nat) (exponent : Int) (digits : Nat) (power : Int) : Prop where
  pos : 0 < digits
  roundsTo : RoundsTo mantissa exponent (magnitude digits power)
  width_le : ∀ c k, 0 < c → RoundsTo mantissa exponent (magnitude c k) → width digits ≤ width c
  near : ∀ c k, 0 < c → RoundsTo mantissa exponent (magnitude c k) → width c ≤ width digits →
    |magnitude digits power - mantissa * 2 ^ exponent| ≤ |magnitude c k - mantissa * 2 ^ exponent| ∧
      (|magnitude digits power - mantissa * 2 ^ exponent| =
          |magnitude c k - mantissa * 2 ^ exponent| →
        magnitude c k ≤ magnitude digits power)

theorem roundsTo_self : RoundsTo mantissa exponent (mantissa * 2 ^ exponent) := by
  have hp : (0 : ℚ) < 2 ^ exponent := by positivity
  have hgap := gapBelow_pos mantissa exponent
  refine .of_lt ?_ ?_
  · gcongr
    linarith
  · gcongr
    linarith

theorem magnitude_trimPower (count digits : Nat) (power : Int) :
    magnitude (trimPower count digits power).1 (trimPower count digits power).2 =
      magnitude digits power := by
  unfold trimPower
  split
  · rename_i h
    subst h
    rw [← magnitude_mul_pow, Nat.one_mul]
    rfl
  · rfl

theorem width_trimPower (hcount : 0 < count) (h : digits ≤ 10 ^ count) :
    width (trimPower count digits power).1 ≤ count := by
  unfold trimPower
  rw [width_le_iff hcount]
  split
  · exact Nat.one_lt_pow hcount.ne' (by decide)
  · rename_i hne
    exact lt_of_le_of_ne h hne

theorem trimPower_pos (h : 0 < digits) : 0 < (trimPower count digits power).1 := by
  unfold trimPower
  split
  · exact one_pos
  · exact h

/-- What is tried with a number of digits: the decimals that enclose the number. -/
structure Encloses (mantissa : Nat) (exponent : Int) (count below : Nat) (power : Int) : Prop where
  count_pos : 0 < count
  full : 10 ^ (count - 1) ≤ below
  lt : below < 10 ^ count
  enclosed : magnitude below power ≤ mantissa * 2 ^ exponent ∧
    mantissa * 2 ^ exponent < magnitude (below + 1) power

theorem Encloses.best (h : Encloses mantissa exponent count below power)
    (hnone : ∀ c k, 0 < c → width c < count → ¬ RoundsTo mantissa exponent (magnitude c k))
    (hr : RoundsTo mantissa exponent (magnitude digits power)) (hd0 : 0 < digits)
    (hd : digits ≤ below + 1)
    (hnear : ∀ z, RoundsTo mantissa exponent z →
      z ≤ magnitude below power ∨ magnitude (below + 1) power ≤ z →
        |magnitude digits power - mantissa * 2 ^ exponent| ≤ |z - mantissa * 2 ^ exponent| ∧
          (|magnitude digits power - mantissa * 2 ^ exponent| = |z - mantissa * 2 ^ exponent| →
            z ≤ magnitude digits power)) :
    Best mantissa exponent (trimPower count digits power).1 (trimPower count digits power).2 := by
  have hwidth : width (trimPower count digits power).1 ≤ count :=
    width_trimPower h.count_pos (hd.trans h.lt)
  have hmag := magnitude_trimPower count digits power
  refine ⟨trimPower_pos hd0, by rwa [hmag], fun c k hc hck => ?_, fun c k hc hck hle => ?_⟩
  · exact hwidth.trans (not_lt.mp fun hlt => hnone c k hc hlt hck)
  · rw [hmag]
    exact hnear _ hck (magnitude_le_or_le h.count_pos h.full
      ((width_le_iff h.count_pos).mp (hle.trans hwidth)) power k)

/-- When neither neighbour is rounded to the number, no decimal of that length is. -/
theorem Encloses.not_roundsTo (h : Encloses mantissa exponent count below power)
    (hlow : ¬ RoundsTo mantissa exponent (magnitude below power))
    (hhigh : ¬ RoundsTo mantissa exponent (magnitude (below + 1) power))
    (hw : width digits ≤ count) (k : Int) :
    ¬ RoundsTo mantissa exponent (magnitude digits k) := by
  intro hck
  rcases magnitude_le_or_le h.count_pos h.full ((width_le_iff h.count_pos).mp hw) power k with
    hle | hle
  · exact hlow (hck.of_le_of_le roundsTo_self hle h.enclosed.1)
  · exact hhigh (Within.of_le_of_le roundsTo_self hck h.enclosed.2.le hle)

/-- Of two neighbours the one that is not `digits`. -/
theorem magnitude_further (h : digits = below ∨ digits = below + 1) (power : Int) :
    magnitude (2 * below + 1 - digits) power =
      magnitude below power + magnitude (below + 1) power - magnitude digits power := by
  rcases h with rfl | rfl
  · rw [add_sub_cancel_left]
    congr 1
    omega
  · rw [add_sub_cancel_right]
    congr 1
    omega

/-- Both neighbours were tried, in either order. -/
theorem Encloses.not_roundsTo_of_tried (h : Encloses mantissa exponent count below power)
    {nearer : Nat} (heq : nearer = below ∨ nearer = below + 1)
    (hnearer : ¬ RoundsTo mantissa exponent (magnitude nearer power))
    (hfurther : ¬ RoundsTo mantissa exponent (magnitude (2 * below + 1 - nearer) power))
    (hw : width digits ≤ count) (k : Int) :
    ¬ RoundsTo mantissa exponent (magnitude digits k) := by
  rcases heq with rfl | rfl
  · rw [show 2 * nearer + 1 - nearer = nearer + 1 by omega] at hfurther
    exact h.not_roundsTo hnearer hfurther hw k
  · rw [show 2 * below + 1 - (below + 1) = below by omega] at hfurther
    exact h.not_roundsTo hfurther hnearer hw k

variable {n d : Nat}

/-- The decimals next to a quotient of natural numbers. -/
theorem encloses_div (hd : 0 < d) (h0 : 0 < mantissa) (hcount : 0 < count)
    (hpower : power = Int.log 10 ((mantissa : ℚ) * 2 ^ exponent) + 1 - count)
    (hy : (n : ℚ) / d = mantissa * 2 ^ exponent / 10 ^ power) :
    Encloses mantissa exponent count (n / d) power := by
  have hv : (0 : ℚ) < mantissa * 2 ^ exponent := by positivity
  have hp : (0 : ℚ) < 10 ^ power := by positivity
  have hfloor : ⌊(n : ℚ) / d⌋₊ = n / d := Nat.floor_div_eq_div n d
  have hlow : (10 : ℚ) ^ Int.log 10 ((mantissa : ℚ) * 2 ^ exponent) ≤ mantissa * 2 ^ exponent := by
    exact_mod_cast Int.zpow_log_le_self (by decide) hv
  have hhigh : (mantissa : ℚ) * 2 ^ exponent <
      10 ^ (Int.log 10 ((mantissa : ℚ) * 2 ^ exponent) + 1) := by
    exact_mod_cast Int.lt_zpow_succ_log_self (b := 10) (by decide) ((mantissa : ℚ) * 2 ^ exponent)
  refine ⟨hcount, ?_, ?_, ?_, ?_⟩
  · rw [← hfloor]
    apply Nat.le_floor
    rw [hy, le_div_iff₀ hp]
    push_cast
    rw [← zpow_natCast, ← zpow_add₀ (by norm_num)]
    rwa [show ((count - 1 : Nat) : Int) + power =
      Int.log 10 ((mantissa : ℚ) * 2 ^ exponent) by omega]
  · rw [← hfloor, Nat.floor_lt (by positivity), hy, div_lt_iff₀ hp]
    push_cast
    rw [← zpow_natCast, ← zpow_add₀ (by norm_num)]
    rwa [show (count : Int) + power =
      Int.log 10 ((mantissa : ℚ) * 2 ^ exponent) + 1 by omega]
  · rw [← hfloor, magnitude, ← le_div_iff₀ hp, ← hy]
    exact Nat.floor_le (by positivity)
  · rw [← hfloor, magnitude, ← div_lt_iff₀ hp, ← hy]
    exact_mod_cast Nat.lt_floor_add_one ((n : ℚ) / d)

theorem nearer_div (hd : 0 < d) (h : Encloses mantissa exponent count (n / d) power)
    (hy : (n : ℚ) / d = mantissa * 2 ^ exponent / 10 ^ power) :
    Nearer (magnitude (n / d) power) (magnitude (n / d + 1) power) (mantissa * 2 ^ exponent)
      (magnitude (if 2 * (n % d) < d then n / d else n / d + 1) power) := by
  have hp : (0 : ℚ) < 10 ^ power := by positivity
  have hv : (mantissa : ℚ) * 2 ^ exponent =
      (((n / d : Nat) : ℚ) + ((n % d : Nat) : ℚ) / d) * 10 ^ power := by
    rw [← div_eq_add hd, hy, div_mul_cancel₀ _ hp.ne']
  refine ⟨h.enclosed, ?_⟩
  unfold magnitude
  rw [hv]
  push_cast
  split
  · rename_i hlt
    refine Or.inl ⟨rfl, ?_⟩
    have := mul_lt_mul_of_pos_right ((mod_div_lt_half_iff hd).mpr hlt) hp
    linarith
  · rename_i hge
    refine Or.inr ⟨rfl, ?_⟩
    have := mul_le_mul_of_nonneg_right (not_lt.mp (mt (mod_div_lt_half_iff hd).mp hge)) hp.le
    linarith

/-- A decimal of seventeen digits is rounded to the number. -/
theorem Encloses.roundsTo (h : Encloses mantissa exponent 17 below power) (hm : mantissa < 2 ^ 53)
    (hr : Nearer (magnitude below power) (magnitude (below + 1) power) (mantissa * 2 ^ exponent) r) :
    RoundsTo mantissa exponent r := by
  have hp : (0 : ℚ) < 10 ^ power := by positivity
  have he : (0 : ℚ) < 2 ^ exponent := by positivity
  have hfull : (10 : ℚ) ^ 16 ≤ below := by exact_mod_cast h.full
  have hlt : (mantissa : ℚ) < 2 ^ 53 := by exact_mod_cast hm
  have hunit : 10 ^ 16 * (10 : ℚ) ^ power ≤ mantissa * 2 ^ exponent :=
    (mul_le_mul_of_nonneg_right hfull hp.le).trans h.enclosed.1
  have hgap : (mantissa : ℚ) ≤ 2 ^ 54 * gapBelow mantissa exponent := by
    unfold gapBelow
    split
    · rename_i hg
      rw [hg.1]
      norm_num
    · linarith
  have hdist : |r - mantissa * 2 ^ exponent| ≤ 10 ^ power / 2 := by
    have hstep : magnitude (below + 1) power = magnitude below power + 10 ^ power := by
      unfold magnitude
      push_cast
      ring
    obtain ⟨⟨hlow, hhigh⟩, ⟨rfl, hnear⟩ | ⟨rfl, hnear⟩⟩ := hr
    · rw [abs_le]
      exact ⟨by linarith, by linarith⟩
    · rw [abs_le]
      exact ⟨by linarith, by linarith⟩
  have hbelow := mul_le_mul_of_nonneg_right hgap he.le
  have habove := mul_lt_mul_of_pos_right hlt he
  have hgap0 := gapBelow_pos mantissa exponent
  have hpos := mul_pos (show 0 < gapBelow mantissa exponent by linarith) he
    (a := gapBelow mantissa exponent)
  obtain ⟨hge, hle⟩ := abs_le.mp hdist
  refine .of_lt ?_ ?_
  · rw [sub_mul]
    linarith
  · rw [add_mul]
    linarith

/-- One step of the search, with the quotient of which the neighbours are tried. -/
theorem shortestFrom_succ (mantissa : Nat) (exponent log : Int) (count : Nat) :
    ∃ n d : Nat, 0 < d ∧ (n : ℚ) / d = mantissa * 2 ^ exponent / 10 ^ (log + 1 - count) ∧
      ∀ fuel, shortestFrom mantissa exponent log (fuel + 1) count =
        let nearer := if 2 * (n % d) < d then n / d else n / d + 1
        if reads mantissa exponent nearer (log + 1 - count) then
          trimPower count nearer (log + 1 - count)
        else if reads mantissa exponent (2 * (n / d) + 1 - nearer) (log + 1 - count) then
          trimPower count (2 * (n / d) + 1 - nearer) (log + 1 - count)
        else shortestFrom mantissa exponent log fuel (count + 1) := by
  refine ⟨(scale 10 (scale 2 mantissa 1 exponent).1 (scale 2 mantissa 1 exponent).2
      (-(log + 1 - count))).1, (scale 10 (scale 2 mantissa 1 exponent).1
      (scale 2 mantissa 1 exponent).2 (-(log + 1 - count))).2, ?_, ?_, fun fuel => rfl⟩
  · exact scale_pos (by decide) (scale_pos two_pos one_pos exponent) _
  · rw [div_scale, div_scale, zpow_neg, ← div_eq_mul_inv]
    push_cast
    rw [div_one]

/-- One length is tried: a decimal is found, or none of that length is rounded to the number. -/
theorem shortestFrom_cases (h0 : 0 < mantissa) (hm : mantissa < 2 ^ 53) (hcount : 0 < count)
    (hlog : log = Int.log 10 ((mantissa : ℚ) * 2 ^ exponent)) (fuel : Nat)
    (hnone : ∀ c k, 0 < c → width c < count → ¬ RoundsTo mantissa exponent (magnitude c k)) :
    Best mantissa exponent (shortestFrom mantissa exponent log (fuel + 1) count).1
        (shortestFrom mantissa exponent log (fuel + 1) count).2 ∨
      count ≠ 17 ∧
        shortestFrom mantissa exponent log (fuel + 1) count =
          shortestFrom mantissa exponent log fuel (count + 1) ∧
        ∀ c k, 0 < c → width c < count + 1 → ¬ RoundsTo mantissa exponent (magnitude c k) := by
  obtain ⟨n, d, hd, hy, heq⟩ := shortestFrom_succ mantissa exponent log count
  have hencl := encloses_div hd h0 hcount (by rw [hlog]) hy
  have hnear := nearer_div hd hencl hy
  have hb0 : 0 < n / d := (Nat.pow_pos (by decide)).trans_le hencl.full
  rw [heq fuel]
  dsimp only
  generalize hr : (if 2 * (n % d) < d then n / d else n / d + 1) = r at *
  have hr' : r = n / d ∨ r = n / d + 1 := by
    rw [← hr]
    split
    · exact Or.inl rfl
    · exact Or.inr rfl
  split
  · rename_i hread
    exact Or.inl (hencl.best hnone ((reads_iff h0).mp hread) (by omega) (by omega)
      fun z _ hz => hnear.le hz)
  · rename_i hread
    have hread := mt (reads_iff h0).mpr hread
    split
    · rename_i hread'
      refine Or.inl (hencl.best hnone ((reads_iff h0).mp hread') (by omega) (by omega) ?_)
      intro z hz hside
      rw [magnitude_further hr']
      exact hnear.le_further roundsTo_self hread hz hside
    · rename_i hread'
      have hread' := mt (reads_iff h0).mpr hread'
      refine Or.inr ⟨?_, rfl, fun c k _ hlt => ?_⟩
      · rintro rfl
        exact hread (hencl.roundsTo hm hnear)
      · exact hencl.not_roundsTo_of_tried hr' hread hread' (Nat.le_of_lt_succ hlt) k

theorem best_shortestFrom (h0 : 0 < mantissa) (hm : mantissa < 2 ^ 53)
    (hlog : log = Int.log 10 ((mantissa : ℚ) * 2 ^ exponent)) (fuel : Nat) (hcount : 0 < count)
    (hfuel : count + fuel = 17)
    (hnone : ∀ c k, 0 < c → width c < count → ¬ RoundsTo mantissa exponent (magnitude c k)) :
    Best mantissa exponent (shortestFrom mantissa exponent log (fuel + 1) count).1
      (shortestFrom mantissa exponent log (fuel + 1) count).2 := by
  induction fuel generalizing count with
  | zero =>
    exact (shortestFrom_cases h0 hm hcount hlog 0 hnone).resolve_right fun h => h.1 hfuel
  | succ fuel ih =>
    rcases shortestFrom_cases h0 hm hcount hlog (fuel + 1) hnone with h | ⟨-, heq, hnext⟩
    · exact h
    · rw [heq]
      exact ih (by omega) (by omega) hnext

/-- The search ends with the best decimal. -/
theorem best_shortest (h0 : 0 < mantissa) (hm : mantissa < 2 ^ 53) (exponent : Int) :
    Best mantissa exponent (shortest mantissa exponent).1 (shortest mantissa exponent).2 := by
  have hd := scale_pos (n := mantissa) two_pos one_pos exponent
  have hn : 0 < (scale 2 mantissa 1 exponent).1 := by
    unfold scale
    split
    · exact Nat.mul_pos h0 (Nat.pow_pos two_pos)
    · exact h0
  have hbound (digits : Nat) : digits < 10 ^ (width digits - 1 + 1) := by
    rw [Nat.sub_add_cancel (width_pos digits)]
    exact lt_pow_width digits
  have hlog := floorLog_eq (show 1 < 10 by decide) (pow_width_le hn) (hbound _) (pow_width_le hd)
    (hbound _)
  rw [div_scale] at hlog
  push_cast [Nat.cast_sub (width_pos _)] at hlog
  rw [div_one] at hlog
  have heq : shortest mantissa exponent = shortestFrom mantissa exponent
      (Int.log 10 ((mantissa : ℚ) * 2 ^ exponent)) 17 1 := by
    unfold shortest
    dsimp only
    rw [← hlog]
    congr 2
    unfold width
    omega
  rw [heq]
  refine best_shortestFrom h0 hm rfl 16 one_pos rfl fun c k hc hlt => ?_
  have := width_pos c
  omega

end Binary64

end LivePreview.Decimal
