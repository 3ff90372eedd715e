import LivePreview.Binary.Frame.StateTable

/-!
# Prefix codes

The code of a block's literal bytes. It is given by a weight for each byte: none, or one more for
each bit that its code word is shorter.
-/
namespace LivePreview.Binary.Frame

/-- A code whose longest words have `width` bits: each way to go on with that many bits has the byte
that the first of them stand for, and their number. -/
structure PrefixCode where
  width : Nat
  words : Array (UInt8 × Nat)
deriving DecidableEq, Repr

namespace PrefixCode

def widthLimit : Nat := 12

/-- How many of the ways to go on a byte of this weight has. -/
def ways (weight : Nat) : Nat := 1 <<< weight / 2

/-- The words in order, the longest first and those of one length by their bytes. -/
def assign (width : Nat) (weights : List Nat) : List (UInt8 × Nat) :=
  (List.range width).flatMap fun shorter =>
    weights.zipIdx.flatMap fun (weight, byte) =>
      if weight = shorter + 1 then List.replicate (ways weight) (UInt8.ofNat byte, width - shorter)
      else []

/-- The code of these weights and one more, which takes all ways that are left. -/
def ofWeights (weights : List Nat) : Option PrefixCode :=
  let total := weights.foldr (fun weight total => ways weight + total) 0
  let width := Nat.log2 total + 1
  let left := 1 <<< width - total
  let weights := weights ++ [Nat.log2 left + 1]
  let longest := weights.count 1
  if total = 0 || width > widthLimit || left ≠ 1 <<< Nat.log2 left || longest < 2
      || longest % 2 = 1 then none
  else some ⟨width, (assign width weights).toArray⟩

/-- Two states take turns: each gives a weight and moves on, until the bits end; the weight of the
other is then the last. -/
def readTurns (table : StateTable) : Nat → State → State → Bits → Option (List Nat)
  | 0, _, _, _ => none
  | count + 1, state, other, bits =>
    if bits.length < state.width then some [state.symbol, other.symbol]
    else do
      let (state', bits) ← table.next state bits
      let rest ← readTurns table count other state' bits
      some (state.symbol :: rest)

/-- Weights in a state table of their own. -/
def readCoded (bytes : Bytes) : Option (List Nat) := do
  let (table, bytes) ← StateTable.read 256 6 bytes
  let (first, bits) ← table.start (← descending bytes)
  let (second, bits) ← table.start bits
  readTurns table 254 first second bits

/-- Weights of four bits, two in a byte. -/
def readPlain (count : Nat) (bytes : Bytes) : List Nat :=
  (bytes.flatMap fun byte => [byte.toNat / 16, byte.toNat % 16]).take count

/-- Reads the description of a code. -/
def read : Decoder PrefixCode
  | [] => none
  | byte :: bytes =>
    let count := byte.toNat - 127
    let size := if count = 0 then byte.toNat else (count + 1) / 2
    if bytes.length < size then none
    else do
      let weights ←
        if count = 0 then readCoded (bytes.take size) else some (readPlain count (bytes.take size))
      some (← ofWeights weights, bytes.drop size)

/-- Decodes that many bytes onto `content`. All bits are used up. -/
def decodeOnto (code : PrefixCode) (content : Array UInt8) : Nat → Bits → Option (Array UInt8)
  | 0, bits => if bits.isEmpty then some content else none
  | count + 1, bits =>
    match code.words[peekHigh code.width bits]? with
    | none => none
    | some (byte, width) =>
      match readHigh width bits with
      | none => none
      | some (_, bits) => decodeOnto code (content.push byte) count bits

def decode (code : PrefixCode) (count : Nat) (bytes : Bytes) : Option Bytes := do
  let content ← decodeOnto code #[] count (← descending bytes)
  some content.toList

/-- Decodes bytes in four parts of equal size, of which the last may be smaller. Their coded sizes
come first, without the last. -/
def decodeParts (code : PrefixCode) (count : Nat) (bytes : Bytes) : Option Bytes := do
  let part := (count + 3) / 4
  let (first, bytes) ← readLittleEndian 2 bytes
  let (second, bytes) ← readLittleEndian 2 bytes
  let (third, bytes) ← readLittleEndian 2 bytes
  if count < 6 || bytes.length < first + second + third then none
  else
    let a ← code.decode part (bytes.take first)
    let bytes := bytes.drop first
    let b ← code.decode part (bytes.take second)
    let bytes := bytes.drop second
    let c ← code.decode part (bytes.take third)
    let d ← code.decode (count - 3 * part) (bytes.drop third)
    some (a ++ b ++ c ++ d)

end PrefixCode

end LivePreview.Binary.Frame
