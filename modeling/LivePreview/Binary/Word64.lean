import LivePreview.Binary.Codec

/-!
# Words of 64 bits

What the hashes of byte sequences are made of: words read from bytes, and turned.
-/
namespace LivePreview.Binary

def rotateRight (x : UInt64) (count : UInt64) : UInt64 := (x >>> count) ||| (x <<< (64 - count))

def rotateLeft (x : UInt64) (count : UInt64) : UInt64 := (x <<< count) ||| (x >>> (64 - count))

/-- The first `width` bytes as a number, the lowest first. -/
def word (width : Nat) (bytes : Bytes) : UInt64 :=
  (bytes.take width).foldr (fun byte value => value * 256 + byte.toUInt64) 0

/-- Uses `step` on the first `width` bytes when there are that many. -/
def consume (width : Nat) (step : UInt64 → Bytes → UInt64) (state : UInt64 × Bytes) :
    UInt64 × Bytes :=
  if state.2.length < width then state else (step state.1 state.2, state.2.drop width)

end LivePreview.Binary
