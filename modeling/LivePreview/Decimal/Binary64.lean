/-!
# Binary floating-point numbers

Numbers of 53 binary digits: the nearest one to a decimal, a tie going to the even neighbour, and
the fewest decimal digits that name it. All arithmetic is exact.
-/
namespace LivePreview.Decimal

/-- A number `mantissa * 2 ^ exponent` of either sign, or what lies outside the range. -/
inductive Binary64 where
  | finite (negative : Bool) (mantissa : Nat) (exponent : Int)
  | infinite (negative : Bool)
  | notANumber
deriving DecidableEq, Repr

/-- A positive fraction scaled by a power of `base`, as numerator and denominator. -/
def scale (base : Nat) (numerator denominator : Nat) (exponent : Int) : Nat × Nat :=
  if 0 ≤ exponent then (numerator * Nat.pow base exponent.toNat, denominator)
  else (numerator, denominator * Nat.pow base (-exponent).toNat)

/-- The integer nearest to a fraction; a half goes to the even neighbour. -/
def roundHalfEven (numerator denominator : Nat) : Nat :=
  let quotient := numerator / denominator
  let twice := 2 * (numerator % denominator)
  if twice < denominator then quotient
  else if twice > denominator then quotient + 1
  else quotient + quotient % 2

/-- The largest `e` with `base ^ e ≤ numerator / denominator`, given an `e` that is at most two
too large. -/
def floorLog (base : Nat) (numerator denominator : Nat) (guess : Int) : Int :=
  let reaches (e : Int) : Bool :=
    let (n, d) := scale base numerator denominator (-e)
    d ≤ n
  if reaches guess then guess else if reaches (guess - 1) then guess - 1 else guess - 2

namespace Binary64

/-- The digits of a full mantissa. -/
def precision : Nat := 53

/-- The exponent of the smallest numbers. -/
def minExponent : Int := -1074

/-- The exponent of the largest numbers. -/
def maxExponent : Int := 971

/-- The number nearest to a positive fraction. -/
def ofFraction (negative : Bool) (numerator denominator : Nat) : Binary64 :=
  let log := floorLog 2 numerator denominator (numerator.log2 - denominator.log2 + 1)
  let exponent := max (log - (precision - 1)) minExponent
  let (n, d) := scale 2 numerator denominator (-exponent)
  let mantissa := roundHalfEven n d
  let (mantissa, exponent) :=
    if mantissa = 1 <<< precision then (1 <<< (precision - 1), exponent + 1) else (mantissa, exponent)
  if exponent > maxExponent then .infinite negative else .finite negative mantissa exponent

/-- The number nearest to `digits * 10 ^ exponent`. Beyond the bounds the exponent alone decides. -/
def ofDecimal (negative : Bool) (digits : Nat) (exponent : Int) : Binary64 :=
  let size : Int := digits.log2
  if digits = 0 then .finite negative 0 minExponent
  else if exponent > 400 then .infinite negative
  else if exponent + size < -400 then .finite negative 0 minExponent
  else
    let (n, d) := scale 10 digits 1 exponent
    ofFraction negative n d

/-- The numbers between which all others are rounded to this one, as fractions of the same
denominator, and whether they are themselves. -/
def interval (mantissa : Nat) (exponent : Int) : Nat × Nat × Nat × Bool :=
  let (unit, denominator) := scale 2 1 4 exponent
  let below := if mantissa = 1 <<< (precision - 1) && exponent > minExponent then 1 else 2
  ((4 * mantissa - below) * unit, (4 * mantissa + 2) * unit, denominator, mantissa % 2 = 0)

/-- Whether `digits * 10 ^ power` is one of the numbers that are rounded to this one. -/
def reads (mantissa : Nat) (exponent : Int) (digits : Nat) (power : Int) : Bool :=
  let (low, high, denominator, closed) := interval mantissa exponent
  let (p, q) := scale 10 digits 1 power
  if closed then low * q ≤ p * denominator && p * denominator ≤ high * q
  else low * q < p * denominator && p * denominator < high * q

/-- `digits * 10 ^ exponent` without zeros at the end of a power of ten. -/
def trimPower (count digits : Nat) (exponent : Int) : Nat × Int :=
  if digits = Nat.pow 10 count then (1, exponent + count) else (digits, exponent)

/-- Digits and exponent of the shortest decimal that names the number, looked for among decimals of
`digits` digits and more. Of two that are equally short and equally near the greater one is taken.
`log` is the exponent of the first digit, or one less than it when the
number is rounded up to a power of ten. -/
def shortestFrom (mantissa : Nat) (exponent log : Int) : Nat → Nat → Nat × Int
  | 0, _ => (0, 0)
  | fuel + 1, digits =>
    let power := log + 1 - digits
    let (n, d) := scale 2 mantissa 1 exponent
    let (n, d) := scale 10 n d (-power)
    let below := n / d
    let nearer := if 2 * (n % d) < d then below else below + 1
    let further := 2 * below + 1 - nearer
    if reads mantissa exponent nearer power then trimPower digits nearer power
    else if reads mantissa exponent further power then trimPower digits further power
    else shortestFrom mantissa exponent log fuel (digits + 1)

/-- The fewest digits that name a positive number, and the exponent of the last of them. -/
def shortest (mantissa : Nat) (exponent : Int) : Nat × Int :=
  let (n, d) := scale 2 mantissa 1 exponent
  let guess : Int := (Nat.toDigits 10 n).length - (Nat.toDigits 10 d).length + 1
  shortestFrom mantissa exponent (floorLog 10 n d guess) 17 1

/-- Digits with the point set, never with an exponent. -/
def positional (digits : Nat) (exponent : Int) : List Char :=
  let written := Nat.toDigits 10 digits
  if 0 ≤ exponent then written ++ List.replicate exponent.toNat '0'
  else
    let places := (-exponent).toNat
    let padded := List.replicate (places + 1 - written.length) '0' ++ written
    padded.take (padded.length - places) ++ '.' :: padded.drop (padded.length - places)

/-- The shortest digits in positional form; a whole number has no point. -/
def text : Binary64 → String
  | finite negative mantissa exponent =>
    let digits :=
      if mantissa = 0 then ['0']
      else
        let (digits, power) := shortest mantissa exponent
        positional digits power
    String.ofList (if negative then '-' :: digits else digits)
  | infinite negative => if negative then "-inf" else "inf"
  | notANumber => "NaN"

end Binary64

/-! ### Reading -/

def natOfDigits (digits : List Char) : Nat :=
  digits.foldl (fun value c => 10 * value + (c.toNat - '0'.toNat)) 0

/-- Splits a sign off; without one the number is not negative. -/
def takeSign : List Char → Bool × List Char
  | '-' :: rest => (true, rest)
  | '+' :: rest => (false, rest)
  | cs => (false, cs)

/-- The exponent that follows the digits, zero when nothing follows. -/
def exponent? : List Char → Option Int
  | [] => some 0
  | e :: rest =>
    if e = 'e' || e = 'E' then
      let (negative, digits) := takeSign rest
      if digits.isEmpty || !digits.all Char.isDigit then none
      else
        let value : Int := natOfDigits digits
        some (if negative then -value else value)
    else none

/-- Reads a number in decimal notation: a sign, digits with a point among or beside them, and an
exponent, of which the digits alone are needed. -/
def parse (text : List Char) : Option Binary64 :=
  let (negative, text) := takeSign text
  let (whole, rest) := text.span Char.isDigit
  let (fraction, rest) :=
    match rest with
    | '.' :: rest => rest.span Char.isDigit
    | _ => ([], rest)
  if whole.isEmpty && fraction.isEmpty then none
  else
    (exponent? rest).map fun exponent =>
      .ofDecimal negative (natOfDigits (whole ++ fraction)) (exponent - fraction.length)

end LivePreview.Decimal
