import LivePreview.Binary.Codec

/-!
# Bits of a frame

Bytes as bits. A description is read from the front, the lowest bit of a number first; coded values
are read from the back, the highest bit first, behind a mark at the very end.
-/
namespace LivePreview.Binary.Frame

abbrev Bits := List Bool

/-- The bits of the bytes, of each byte the lowest first. -/
def ascending (bytes : Bytes) : Bits :=
  bytes.flatMap fun byte => (List.range 8).map byte.toNat.testBit

/-- The bits before the mark, which is the highest bit set in the last byte, from the back. -/
def descending (bytes : Bytes) : Option Bits :=
  if bytes.getLast?.getD 0 = 0 then none
  else some ((ascending bytes).reverse.dropWhile (!·)).tail

/-- A number of `width` bits, the lowest first. -/
def readLow : Nat → Bits → Option (Nat × Bits)
  | 0, bits => some (0, bits)
  | _ + 1, [] => none
  | width + 1, bit :: bits =>
    (readLow width bits).map fun (n, rest) => (bit.toNat + 2 * n, rest)

/-- The number that goes on from `n` with `width` bits, the highest first. -/
def readHighFrom (n : Nat) : Nat → Bits → Option (Nat × Bits)
  | 0, bits => some (n, bits)
  | _ + 1, [] => none
  | width + 1, bit :: bits => readHighFrom (2 * n + bit.toNat) width bits

/-- A number of `width` bits, the highest first. -/
def readHigh (width : Nat) (bits : Bits) : Option (Nat × Bits) := readHighFrom 0 width bits

/-- The number that `width` bits make, the highest first; bits that are missing are zero. -/
def peekHigh : Nat → Bits → Nat
  | 0, _ => 0
  | _ + 1, [] => 0
  | width + 1, bit :: bits => bit.toNat <<< width + peekHigh width bits

end LivePreview.Binary.Frame
