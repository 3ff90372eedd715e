import LivePreview.Binary.Word64

/-!
# Fingerprints

A fingerprint is the 64-bit Metro hash of a byte sequence. Equal contents, and equal tables of
imports, have equal fingerprints.
-/
namespace LivePreview

structure Fingerprint where
  value : UInt64
deriving DecidableEq, Repr

namespace Fingerprint

open Binary

/-- The multipliers of the hash. -/
def k₀ : UInt64 := 0xD6D018F5
def k₁ : UInt64 := 0xA2AA033B
def k₂ : UInt64 := 0x62992FC1
def k₃ : UInt64 := 0x30BC5B29

/-- The four running values over a block of 32 bytes. -/
structure Lanes where
  a : UInt64
  b : UInt64
  c : UInt64
  d : UInt64

namespace Lanes

/-- Takes a block of four words in. -/
def absorb (lanes : Lanes) (block : Bytes) : Lanes :=
  let a := rotateRight (lanes.a + word 8 block * k₀) 29 + lanes.c
  let b := rotateRight (lanes.b + word 8 (block.drop 8) * k₁) 29 + lanes.d
  let c := rotateRight (lanes.c + word 8 (block.drop 16) * k₂) 29 + a
  let d := rotateRight (lanes.d + word 8 (block.drop 24) * k₃) 29 + b
  ⟨a, b, c, d⟩

/-- The values mixed into one. -/
def mix (lanes : Lanes) : UInt64 :=
  let c := lanes.c ^^^ rotateRight ((lanes.a + lanes.d) * k₀ + lanes.b) 37 * k₁
  let d := lanes.d ^^^ rotateRight ((lanes.b + c) * k₁ + lanes.a) 37 * k₀
  let a := lanes.a ^^^ rotateRight ((lanes.a + c) * k₀ + d) 37 * k₁
  let b := lanes.b ^^^ rotateRight ((lanes.b + d) * k₁ + c) 37 * k₀
  a ^^^ b

/-- Takes in that many blocks. -/
def absorbBlocks (lanes : Lanes) : Nat → Bytes → Lanes
  | 0, _ => lanes
  | count + 1, bytes => (lanes.absorb bytes).absorbBlocks count (bytes.drop 32)

end Lanes

/-- Takes two words in. -/
def absorbPair (hash : UInt64) (bytes : Bytes) : UInt64 :=
  let a := rotateRight (hash + word 8 bytes * k₂) 29 * k₃
  let b := rotateRight (hash + word 8 (bytes.drop 8) * k₂) 29 * k₃
  let a := a ^^^ (rotateRight (a * k₀) 21 + b)
  hash + (b ^^^ (rotateRight (b * k₃) 21 + a))

/-- Takes in one number of `width` bytes. -/
def absorbWord (width : Nat) (rotation : UInt64) (hash : UInt64) (bytes : Bytes) : UInt64 :=
  let hash := hash + word width bytes * k₃
  hash ^^^ rotateRight hash rotation * k₁

/-- The hash of a byte sequence. -/
def ofBytes (bytes : Bytes) : Fingerprint :=
  let start := k₂ * k₀
  let blocks := bytes.length / 32
  let hash :=
    if blocks = 0 then start
    else start + ((⟨start, start, start, start⟩ : Lanes).absorbBlocks blocks bytes).mix
  let (hash, _) :=
    (hash, bytes.drop (32 * blocks))
      |> consume 16 absorbPair
      |> consume 8 (absorbWord 8 55)
      |> consume 4 (absorbWord 4 26)
      |> consume 2 (absorbWord 2 48)
      |> consume 1 (absorbWord 1 37)
  let hash := (hash ^^^ rotateRight hash 28) * k₀
  ⟨hash ^^^ rotateRight hash 29⟩

def utf8 (text : String) : Bytes := text.toUTF8.data.toList

def ofContent (content : String) : Fingerprint := ofBytes (utf8 content)

/-- The bytes that stand for a table of imports. Two bytes that no text contains mark the ends of
the specifier and of its target. -/
def importBytes (targets : List (String × String)) : Bytes :=
  targets.flatMap fun (specifier, target) => utf8 specifier ++ [0xFF] ++ utf8 target ++ [0xFE]

def ofImports (targets : List (String × String)) : Fingerprint := ofBytes (importBytes targets)

end Fingerprint

end LivePreview
