import LivePreview.Binary.Frame.Block
import LivePreview.Binary.Frame.Checksum

/-!
# Compressed frames

The frames in which bytes are stored compressed: a magic number, a header, blocks, and maybe a
checksum. `pack` writes one frame whose blocks hold the bytes as they are; `unpack` reads the
content of any number of frames.
-/
namespace LivePreview.Binary.Frame

def magic : Bytes := [0x28, 0xB5, 0x2F, 0xFD]

/-- No block is larger. -/
def blockLimit : Nat := 0x20000

/-- Three bytes before a block: whether it is the last one, its kind and its size. -/
def blockHeader (isLast : Bool) (size : Nat) : Bytes :=
  littleEndian 3 ((if isLast then 1 else 0) + 8 * size)

/-- The bytes in blocks as they are; `count` further blocks may follow the first. -/
def blocks : Nat → Bytes → Bytes
  | 0, bytes => blockHeader true bytes.length ++ bytes
  | count + 1, bytes =>
    if bytes.length ≤ blockLimit then blockHeader true bytes.length ++ bytes
    else
      blockHeader false blockLimit ++ bytes.take blockLimit ++ blocks count (bytes.drop blockLimit)

/-- A frame that holds the bytes: a window of the size of a block, and neither the content's size
nor its checksum. -/
def pack (bytes : Bytes) : Bytes :=
  magic ++ 0x00 :: 0x38 :: blocks (bytes.length / blockLimit) bytes

/-- What is told of a frame before its blocks. -/
structure Header where
  /-- How far back a block may look. -/
  window : Nat
  /-- The size of the content. -/
  size : Option Nat
  hasChecksum : Bool
deriving DecidableEq, Repr

namespace Header

/-- The largest window that is granted. -/
def windowLimit : Nat := 0x8000001

/-- The largest content that is decoded in one piece. -/
def smallLimit : Nat := 0x2000

/-- A frame that is known to be small is decoded in one piece, whatever its window. -/
def isSmall (header : Header) : Bool := header.size.any (· ≤ smallLimit)

/-- Blocks are held to the size of the window. -/
def blockLimit (header : Header) : Nat := min header.window Frame.blockLimit

def isGranted (header : Header) : Bool := header.isSmall || header.window ≤ windowLimit

/-- The window that a byte describes: a power of two and eighths of it. -/
def windowOf (byte : Nat) : Option Nat :=
  let exponent := byte / 8 + 10
  if exponent > 31 then none else some (1 <<< exponent + 1 <<< exponent / 8 * (byte % 8))

/-- Reads the size of the content. Its width is coded in two bits; what is held in two bytes starts
at 256, and eight bytes may hold that it is not known. -/
def readSize (code : Nat) (isSingle : Bool) : Decoder (Option Nat) := fun bytes =>
  match code with
  | 0 =>
    if isSingle then (readLittleEndian 1 bytes).map fun (n, rest) => (some n, rest)
    else some (none, bytes)
  | 1 => (readLittleEndian 2 bytes).map fun (n, rest) => (some (n + 256), rest)
  | 2 => (readLittleEndian 4 bytes).map fun (n, rest) => (some n, rest)
  | _ =>
    (readLittleEndian 8 bytes).map fun (n, rest) => (if n = UInt64.size - 1 then none else some n, rest)

/-- Reads a header. A frame of a single segment has a window of the size of its content. Frames that
need a dictionary are refused. -/
def read : Decoder Header := fun bytes => do
  let (descriptor, bytes) ← readLittleEndian 1 bytes
  let isSingle := descriptor / 32 % 2 = 1
  let (window, bytes) ←
    if isSingle then some (none, bytes)
    else
      let (byte, bytes) ← readLittleEndian 1 bytes
      some (some (← windowOf byte), bytes)
  let (dictionary, bytes) ← readLittleEndian (1 <<< (descriptor % 4) / 2) bytes
  let (size, bytes) ← readSize (descriptor / 64) isSingle bytes
  if descriptor / 8 % 2 = 1 || dictionary ≠ 0 then none
  else
    let header : Header := ⟨← window.or size, size, descriptor / 4 % 2 = 1⟩
    if header.isGranted then some (header, bytes) else none

end Header

/-- Reads blocks up to the last one, of which there are at most `count`. Tells also whether the last
one is empty. Unless the frame is small, an empty block is passed over whether it is compressed or
not, and no block is larger than the limit. -/
def readBlocks (header : Header) : Nat → Progress → Decoder (Progress × Bool)
  | 0, _, _ => none
  | count + 1, progress, bytes => do
    let (fields, bytes) ← readLittleEndian 3 bytes
    let kind := fields / 2 % 4
    let size := fields / 8
    let isEmpty := size = 0 && (kind = 0 || kind = 2) && !header.isSmall
    let (after, bytes) ←
      if isEmpty then some (progress, bytes)
      else progress.readBlock kind size header.blockLimit bytes
    let growth := after.content.size - progress.content.size
    if !header.isSmall && max size growth > header.blockLimit then none
    else if fields % 2 = 1 then some ((after, isEmpty), bytes)
    else readBlocks header count after bytes

/-- Reads what follows the magic number of a frame. The content has the size that the header tells,
which goes unchecked behind an empty last block. -/
def readContent : Decoder Bytes := fun bytes => do
  let (header, bytes) ← Header.read bytes
  let ((progress, endsEmpty), bytes) ← readBlocks header bytes.length .start bytes
  let content := progress.content.toList
  let (stored, bytes) ← readLittleEndian (if header.hasChecksum then 4 else 0) bytes
  let isSound := !header.hasChecksum || stored = checksum content
  let isWhole := endsEmpty || header.size.all (· = content.length)
  if isSound && isWhole then some (content, bytes) else none

/-- The first byte of a frame that is skipped, but for its lower half. -/
def isSkipped (bytes : Bytes) : Bool :=
  bytes.head?.any (·.toNat / 16 = 5) && (bytes.drop 1).take 3 = [0x2A, 0x4D, 0x18]

/-- Reads the size of a frame that is skipped, and passes over it. -/
def skip : Decoder Bytes := fun bytes => do
  let (size, bytes) ← readLittleEndian 4 bytes
  if bytes.length < size then none else some ([], bytes.drop size)

/-- Reads one frame. -/
def readFrame : Decoder Bytes := fun bytes =>
  if magic.isPrefixOf bytes then readContent (bytes.drop 4)
  else if isSkipped bytes then skip (bytes.drop 4)
  else none

/-- Reads frames to the end, of which there are at most `count`. -/
def readFrames : Nat → Bytes → Option Bytes
  | _, [] => some []
  | 0, _ => none
  | count + 1, bytes => do
    let (content, bytes) ← readFrame bytes
    let rest ← readFrames count bytes
    some (content ++ rest)

/-- The content of one or more frames with nothing behind them. -/
def unpack (bytes : Bytes) : Option Bytes :=
  if bytes.isEmpty then none else readFrames bytes.length bytes

end LivePreview.Binary.Frame
