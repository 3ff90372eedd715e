import LivePreview.Decimal.Binary64

/-!
# YAML scalars

The value that an unquoted scalar stands for: null, a truth value, an integer of 64 bits, a
floating-point number, or else its own text.
-/
namespace LivePreview.Yaml

open Decimal

inductive Scalar where
  | null
  | boolean (value : Bool)
  | integer (value : Int)
  | real (value : Binary64)
  | text (value : String)
deriving DecidableEq, Repr

namespace Scalar

/-- The value of a digit in a base of at most sixteen. -/
def digit? (base : Nat) (c : Char) : Option Nat :=
  let value :=
    if c.isDigit then c.toNat - '0'.toNat
    else if 'a' ≤ c && c ≤ 'f' then c.toNat - 'a'.toNat + 10
    else if 'A' ≤ c && c ≤ 'F' then c.toNat - 'A'.toNat + 10
    else base
  if value < base then some value else none

/-- A signed integer of 64 bits in the given base. -/
def integer? (base : Nat) (text : List Char) : Option Int := do
  let (negative, digits) := takeSign text
  if digits.isEmpty then none
  else
    let value ← digits.foldlM (fun value c => (digit? base c).map (base * value + ·)) 0
    let value : Int := if negative then -value else value
    if Int64.minValue.toInt ≤ value ∧ value ≤ Int64.maxValue.toInt then some value else none

/-- A floating-point number. Anything but the named values needs a digit. -/
def real? (text : String) : Option Binary64 :=
  if text ∈ [".inf", ".Inf", ".INF", "+.inf", "+.Inf", "+.INF"] then some (.infinite false)
  else if text ∈ ["-.inf", "-.Inf", "-.INF"] then some (.infinite true)
  else if text ∈ [".nan", ".NaN", ".NAN"] then some .notANumber
  else if text.toList.any Char.isDigit then Decimal.parse text.toList
  else none

/-- The integer that a prefix announces: `0x`, `0o` or a plus sign. -/
def marked? (text : List Char) : Option Int :=
  match text with
  | '0' :: 'x' :: rest => integer? 16 rest
  | '0' :: 'o' :: rest => integer? 8 rest
  | '+' :: rest => integer? 10 rest
  | _ => none

/-- The value of an unquoted scalar without a tag. -/
def ofPlain (text : String) : Scalar :=
  match marked? text.toList with
  | some value => .integer value
  | none =>
    if text ∈ ["~", "null", "NULL"] then .null
    else if text = "true" then .boolean true
    else if text = "false" then .boolean false
    else
      match integer? 10 text.toList with
      | some value => .integer value
      | none =>
        match real? text with
        | some value => .real value
        | none => .text text

/-- The value of an unquoted scalar under a tag of the core schema; `none` when the tag does not fit
the text. -/
def ofTagged? (name text : String) : Option Scalar :=
  match name with
  | "bool" =>
    if text = "true" then some (.boolean true)
    else if text = "false" then some (.boolean false) else none
  | "int" => (integer? 10 text.toList).map .integer
  | "float" => (real? text).map .real
  | "null" => if text = "~" ∨ text = "null" then some .null else none
  | "str" => some (.text text)
  | _ => none

/-- The digits of an integer behind its sign. -/
def integerText (value : Int) : String := toString value

/-- The scalar as text, unless it is null. -/
def asText? : Scalar → Option String
  | null => none
  | boolean value => some (if value then "true" else "false")
  | integer value => some (integerText value)
  | real value => some value.text
  | text value => some value

end Scalar

end LivePreview.Yaml
