import LivePreview.Decimal.Binary64
import LivePreview.Text.Location

/-!
# JSON texts

Decides whether a text is one JSON value, and names the first defect if it is not. Numbers have to
fit into 64-bit floating point, and containers may be nested 127 deep. Positions are counted in
bytes.
-/
namespace LivePreview.Json

open Decimal

inductive Defect where
  | endInList
  | endInObject
  | endInString
  | endInValue
  | colonExpected
  | listEndExpected
  | objectEndExpected
  | wordExpected
  | valueExpected
  | invalidEscape
  | invalidNumber
  | numberOutOfRange
  | controlCharacter
  | keyNotString
  | loneSurrogate
  | escapeCutShort
  | trailingComma
  | trailingCharacters
  | tooDeep
deriving DecidableEq, Repr

namespace Defect

def message : Defect → String
  | endInList => "EOF while parsing a list"
  | endInObject => "EOF while parsing an object"
  | endInString => "EOF while parsing a string"
  | endInValue => "EOF while parsing a value"
  | colonExpected => "expected \x60:\x60"
  | listEndExpected => "expected \x60,\x60 or \x60]\x60"
  | objectEndExpected => "expected \x60,\x60 or \x60\x7d\x60"
  | wordExpected => "expected ident"
  | valueExpected => "expected value"
  | invalidEscape => "invalid escape"
  | invalidNumber => "invalid number"
  | numberOutOfRange => "number out of range"
  | controlCharacter => "control character (\\u0000-\\u001F) found while parsing a string"
  | keyNotString => "key must be a string"
  | loneSurrogate => "lone leading surrogate in hex escape"
  | escapeCutShort => "unexpected end of hex escape"
  | trailingComma => "trailing comma"
  | trailingCharacters => "trailing characters"
  | tooDeep => "recursion limit exceeded"

end Defect

/-- A defect and where it was noticed. The column is the number of bytes in front of that place in
its line. -/
structure Fault where
  defect : Defect
  location : Text.Location
deriving DecidableEq, Repr

def Fault.message (fault : Fault) : String :=
  fault.defect.message ++ " at line " ++ toString fault.location.line ++ " column " ++
    toString fault.location.column

/-! ### Reading bytes -/

/-- The bytes not read yet, and the number of those that were. -/
structure Cursor where
  rest : List UInt8
  offset : Nat := 0

/-- A check fails with a defect and a byte position. -/
abbrev Check := StateT Cursor (Except (Defect × Nat))

namespace Check

def peek : Check (Option UInt8) := return (← get).rest.head?

def skip : Check Unit := modify fun c => { rest := c.rest.tail, offset := c.offset + 1 }

/-- The next byte, which is read. -/
def next : Check (Option UInt8) := do
  let byte ← peek
  if byte.isSome then skip
  return byte

/-- The next byte is this character. -/
def isNext (c : Char) : Check Bool := return (← peek) = some c.toUInt8

/-- Reads the longest run of bytes that satisfy the condition. -/
def takeWhile (p : UInt8 → Bool) : Check (List UInt8) := do
  let c ← get
  let (taken, rest) := c.rest.span p
  set ({ rest, offset := c.offset + taken.length } : Cursor)
  return taken

/-- Fails behind what was read. -/
def failHere {α : Type} (defect : Defect) : Check α := do
  throw (defect, (← get).offset)

/-- Fails behind the next byte, which is at fault. -/
def failAhead {α : Type} (defect : Defect) : Check α := do
  let c ← get
  throw (defect, if c.rest.isEmpty then c.offset else c.offset + 1)

def isSpace (byte : UInt8) : Bool :=
  byte ∈ [' '.toUInt8, '\n'.toUInt8, '\t'.toUInt8, '\r'.toUInt8]

/-- The next byte that is no white space. -/
def peekSolid : Check (Option UInt8) := do
  discard (takeWhile isSpace)
  peek

def isDigit (byte : UInt8) : Bool := '0'.toUInt8 ≤ byte && byte ≤ '9'.toUInt8

def digitValue (byte : UInt8) : Nat := byte.toNat - '0'.toNat

/-! ### Words and numbers -/

/-- The rest of a word. -/
def word : List Char → Check Unit
  | [] => return
  | expected :: rest => do
    match ← next with
    | none => failHere .endInValue
    | some byte => if byte = expected.toUInt8 then word rest else failHere .wordExpected

/-- Appends digits to a number as long as it stays below `2 ^ 64`. Answers it and the number of
digits left over. -/
def appendDigits (value : Nat) : List UInt8 → Nat × Nat
  | [] => (value, 0)
  | digit :: rest =>
    let longer := 10 * value + digitValue digit
    if longer < UInt64.size then appendDigits longer rest else (value, rest.length + 1)

/-- The nearest number to `significand * 10 ^ exponent`, as the product of the numbers nearest to its
factors, lies beyond the largest. -/
def isOutOfRange (significand : Nat) (exponent : Int) : Bool :=
  if significand = 0 || exponent < 0 then false
  else if exponent > 308 then true
  else
    match Binary64.ofDecimal false significand 0, Binary64.ofDecimal false 1 exponent with
    | .finite _ m p, .finite _ n q =>
      let (numerator, denominator) := scale 2 (m * n) 1 (p + q)
      match Binary64.ofFraction false numerator denominator with
      | .infinite _ => true
      | _ => false
    | _, _ => true

def requireRange (significand : Nat) (exponent : Int) : Check Unit := do
  if isOutOfRange significand exponent then failHere .numberOutOfRange

/-- The largest exponent that is taken at its value. -/
def maxExponent : Nat := 0x7FFFFFFF

/-- The digits of an exponent. Once it is too large it fails, if `bounded`, without a look at the
other digits. -/
def exponentDigits (bounded : Bool) (value : Nat) : Nat → Check Nat
  | 0 => return value
  | fuel + 1 => do
    match ← peek with
    | some byte =>
      if !isDigit byte then return value
      skip
      let value := 10 * value + digitValue byte
      if bounded && value > maxExponent then failHere .numberOutOfRange
      else exponentDigits bounded value fuel
    | none => return value

/-- The exponent of a number, behind its `e`. -/
def exponent (significand : Nat) (shift : Int) : Check Unit := do
  skip
  let negative ← isNext '-'
  if negative || (← isNext '+') then skip
  match ← next with
  | none => failHere .endInValue
  | some byte =>
    if !isDigit byte then failHere .invalidNumber
    let bounded := significand ≠ 0 && !negative
    let value ← exponentDigits bounded (digitValue byte) ((← get).rest.length + 1)
    requireRange significand (if negative then shift - value else shift + value)

def isExponentMark (byte : Option UInt8) : Bool :=
  byte = some 'e'.toUInt8 || byte = some 'E'.toUInt8

/-- What follows the whole digits of a number. -/
def fraction (significand : Nat) (shift : Int) : Check Unit := do
  skip
  let digits ← takeWhile isDigit
  if digits.isEmpty then
    match ← peek with
    | some _ => failAhead .invalidNumber
    | none => failHere .endInValue
  let (significand, left) := appendDigits significand digits
  let shift := shift - (digits.length - left)
  if isExponentMark (← peek) then exponent significand shift
  else requireRange significand shift

/-- A number behind its sign. -/
def number : Check Unit := do
  match ← next with
  | none => failHere .endInValue
  | some first =>
    if !isDigit first then failHere .invalidNumber
    let more ← if first = '0'.toUInt8 then pure [] else takeWhile isDigit
    if first = '0'.toUInt8 && (← peek).any isDigit then failAhead .invalidNumber
    let (significand, left) := appendDigits (digitValue first) more
    if ← isNext '.' then fraction significand left
    else if isExponentMark (← peek) then exponent significand left
    else requireRange significand left

/-! ### Strings -/

def hexValue? (byte : UInt8) : Option Nat :=
  let c := Char.ofNat byte.toNat
  if c.isDigit then some (c.toNat - '0'.toNat)
  else if 'a' ≤ c && c ≤ 'f' then some (c.toNat - 'a'.toNat + 10)
  else if 'A' ≤ c && c ≤ 'F' then some (c.toNat - 'A'.toNat + 10)
  else none

/-- Four hexadecimal digits. -/
def hexEscape : Check Nat := do
  let c ← get
  let digits := c.rest.take 4
  set ({ rest := c.rest.drop 4, offset := c.offset + digits.length } : Cursor)
  if digits.length < 4 then failHere .endInString
  else
    match digits.mapM hexValue? with
    | some values => return values.foldl (16 * · + ·) 0
    | none => failHere .invalidEscape

/-- A byte that has to follow the first half of a surrogate pair. -/
def pairMark (c : Char) : Check Unit := do
  match ← next with
  | none => failHere .endInString
  | some byte => if byte ≠ c.toUInt8 then failHere .escapeCutShort

/-- A character by its number, or a pair of surrogates. -/
def unicodeEscape : Check Unit := do
  let unit ← hexEscape
  if 0xDC00 ≤ unit && unit ≤ 0xDFFF then failHere .loneSurrogate
  if 0xD800 ≤ unit && unit ≤ 0xDBFF then
    pairMark '\\'
    pairMark 'u'
    let low ← hexEscape
    if !(0xDC00 ≤ low && low ≤ 0xDFFF) then failHere .loneSurrogate

def escapeSequence : Check Unit := do
  match ← next with
  | none => failHere .endInString
  | some byte =>
    if byte = 'u'.toUInt8 then unicodeEscape
    else if byte ∉ ['"', '\\', '/', 'b', 'f', 'n', 'r', 't'].map Char.toUInt8 then
      failHere .invalidEscape

/-- A string behind its opening quote. -/
def string : Nat → Check Unit
  | 0 => return
  | fuel + 1 => do
    match ← next with
    | none => failHere .endInString
    | some byte =>
      if byte = '"'.toUInt8 then return
      else if byte = '\\'.toUInt8 then escapeSequence; string fuel
      else if byte < 0x20 then failHere .controlCharacter
      else string fuel

/-- As many steps as there can be bytes to read. -/
def bound : Check Nat := return (← get).rest.length + 1

/-! ### Values -/

/-- Items up to the end of a list; `first` when no comma has to precede. -/
def listItems (value : Check Unit) (first : Bool) : Nat → Check Unit
  | 0 => return
  | fuel + 1 => do
    match ← peekSolid with
    | none => failAhead .endInList
    | some byte =>
      if byte = ']'.toUInt8 then skip
      else
        if !first then
          if byte ≠ ','.toUInt8 then failAhead .listEndExpected
          skip
          match ← peekSolid with
          | none => failAhead .endInValue
          | some byte => if byte = ']'.toUInt8 then failAhead .trailingComma
        value
        listItems value false fuel

/-- A key, a colon and a value. -/
def entry (value : Check Unit) : Check Unit := do
  skip
  string (← bound)
  match ← peekSolid with
  | none => failAhead .endInObject
  | some byte =>
    if byte ≠ ':'.toUInt8 then failAhead .colonExpected
    skip
    value

/-- Entries up to the end of an object; `first` when no comma has to precede. -/
def objectEntries (value : Check Unit) (first : Bool) : Nat → Check Unit
  | 0 => return
  | fuel + 1 => do
    match ← peekSolid with
    | none => failAhead .endInObject
    | some byte =>
      if byte = '\x7d'.toUInt8 then skip
      else
        if first then
          if byte ≠ '"'.toUInt8 then failAhead .keyNotString
        else
          if byte ≠ ','.toUInt8 then failAhead .objectEndExpected
          skip
          match ← peekSolid with
          | none => failAhead .endInValue
          | some byte =>
            if byte = '\x7d'.toUInt8 then failAhead .trailingComma
            if byte ≠ '"'.toUInt8 then failAhead .keyNotString
        entry value
        objectEntries value false fuel

/-- A value that is no container. -/
def simpleValue (byte : UInt8) : Check Unit := do
  if byte = 'n'.toUInt8 then skip; word ['u', 'l', 'l']
  else if byte = 't'.toUInt8 then skip; word ['r', 'u', 'e']
  else if byte = 'f'.toUInt8 then skip; word ['a', 'l', 's', 'e']
  else if byte = '-'.toUInt8 then skip; number
  else if isDigit byte then number
  else if byte = '"'.toUInt8 then skip; string (← bound)
  else failAhead .valueExpected

/-- A value that holds containers at most `depth` deep. -/
def value : Nat → Check Unit := fun depth => do
  match ← peekSolid with
  | none => failAhead .endInValue
  | some byte =>
    if byte = '['.toUInt8 then
      match depth with
      | 0 => failAhead .tooDeep
      | depth + 1 => skip; listItems (value depth) true (← bound)
    else if byte = '\x7b'.toUInt8 then
      match depth with
      | 0 => failAhead .tooDeep
      | depth + 1 => skip; objectEntries (value depth) true (← bound)
    else simpleValue byte

/-- How deep containers may be nested. -/
def maxDepth : Nat := 127

/-- One value and nothing else. -/
def text : Check Unit := do
  value maxDepth
  if (← peekSolid).isSome then failAhead .trailingCharacters

end Check

/-- The line of a byte position, and the bytes in front of it in that line. -/
def locationAt (bytes : List UInt8) (offset : Nat) : Text.Location :=
  let before := bytes.take offset
  ⟨before.count '\n'.toUInt8 + 1, (before.reverse.takeWhile (· ≠ '\n'.toUInt8)).length⟩

/-- The first defect of a text, `none` when it is JSON. -/
def firstFault? (text : String) : Option Fault :=
  let bytes := text.toUTF8.data.toList
  match Check.text.run { rest := bytes } with
  | .ok _ => none
  | .error (defect, offset) => some ⟨defect, locationAt bytes offset⟩

end LivePreview.Json
