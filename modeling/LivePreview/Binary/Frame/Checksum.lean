import LivePreview.Binary.Word64

/-!
# Checksum of a frame

The 64-bit xxHash, without a seed, of a frame's content. A frame stores its lower half.
-/
namespace LivePreview.Binary.Frame

namespace Checksum

/-- The multipliers of the hash. -/
def p₁ : UInt64 := 0x9E3779B185EBCA87
def p₂ : UInt64 := 0xC2B2AE3D27D4EB4F
def p₃ : UInt64 := 0x165667B19E3779F9
def p₄ : UInt64 := 0x85EBCA77C2B2AE63
def p₅ : UInt64 := 0x27D4EB2F165667C5

/-- Takes one value into another. -/
def absorb (lane value : UInt64) : UInt64 := rotateLeft (lane + value * p₂) 31 * p₁

/-- Takes blocks of 32 bytes in, of which each of the four running values gets one word. -/
def absorbBlocks (lanes : List UInt64) : Nat → Bytes → List UInt64
  | 0, _ => lanes
  | count + 1, bytes =>
    absorbBlocks (lanes.zipIdx.map fun (lane, i) => absorb lane (word 8 (bytes.drop (8 * i)))) count
      (bytes.drop 32)

/-- The running values before the first block. -/
def start : List UInt64 := [p₁ + p₂, p₂, 0, 0 - p₁]

/-- Four running values mixed into one. -/
def mix (lanes : List UInt64) : UInt64 :=
  let sum := (lanes.zip [1, 7, 12, 18]).foldr
    (fun (lane, count) total => rotateLeft lane count + total) 0
  lanes.foldl (fun hash lane => (hash ^^^ absorb 0 lane) * p₁ + p₄) sum

/-- Takes in eight, four and single bytes that make no block. -/
def absorb8 (hash : UInt64) (bytes : Bytes) : UInt64 :=
  rotateLeft (hash ^^^ absorb 0 (word 8 bytes)) 27 * p₁ + p₄

def absorb4 (hash : UInt64) (bytes : Bytes) : UInt64 :=
  rotateLeft (hash ^^^ word 4 bytes * p₁) 23 * p₂ + p₃

def absorb1 (hash : UInt64) (byte : UInt8) : UInt64 :=
  rotateLeft (hash ^^^ byte.toUInt64 * p₅) 11 * p₁

end Checksum

open Checksum in
/-- The checksum that a frame with this content stores. -/
def checksum (content : Bytes) : Nat :=
  let blocks := content.length / 32
  let hash := if blocks = 0 then p₅ else mix (absorbBlocks start blocks content)
  let (hash, rest) :=
    (hash + UInt64.ofNat content.length, content.drop (32 * blocks))
      |> consume 8 absorb8
      |> consume 8 absorb8
      |> consume 8 absorb8
      |> consume 4 absorb4
  let hash := rest.foldl absorb1 hash
  let hash := (hash ^^^ (hash >>> 33)) * p₂
  let hash := (hash ^^^ (hash >>> 29)) * p₃
  (hash ^^^ (hash >>> 32)).toNat % UInt32.size

end LivePreview.Binary.Frame
