import LivePreview.Binary.Frame.PrefixCode
import LivePreview.Binary.Frame.Sequence

/-!
# Blocks of a frame

A block holds its bytes as they are, or one byte and how often it is repeated, or literal bytes and
the sequences that arrange them. A compressed block may use again the codes of the one before it,
the last distances, and all content so far.
-/
namespace LivePreview.Binary.Frame

/-- What the blocks of a frame so far have left behind. -/
structure Progress where
  content : Array UInt8
  code : Option PrefixCode
  tables : Option SequenceTables
  recent : RecentDistances

namespace Progress

def start : Progress := ⟨#[], none, none, .start⟩

/-- Copies that many literal bytes onto the content. The literal bytes behind them are left. -/
def copyLiterals : Nat → Bytes → Array UInt8 → Option (Array UInt8 × Bytes)
  | 0, literals, content => some (content, literals)
  | _ + 1, [], _ => none
  | count + 1, byte :: literals, content => copyLiterals count literals (content.push byte)

/-- Repeats that many bytes of the content, which may be among those just copied. -/
def copyBack (distance : Nat) : Nat → Array UInt8 → Option (Array UInt8)
  | 0, content => some content
  | count + 1, content =>
    match content[content.size - distance]? with
    | none => none
    | some byte => copyBack distance count (content.push byte)

/-- Carries the sequences out, and then copies the literal bytes that are left. -/
def arrange (content : Array UInt8) (recent : RecentDistances) (literals : Bytes) :
    List Sequence → Option (Array UInt8 × RecentDistances)
  | [] => some (content ++ literals, recent)
  | sequence :: sequences =>
    match copyLiterals sequence.literals literals content with
    | none => none
    | some (content, literals) =>
      let (distance, recent) := recent.resolve sequence
      if distance > content.size then none
      else
        match copyBack distance sequence.length content with
        | none => none
        | some content => arrange content recent literals sequences

/-- Reads the literal bytes of a compressed block: as they are, one byte repeated, or in a code,
which is a new one or the one before. -/
def readLiterals (code : Option PrefixCode) (limit : Nat) :
    Decoder (Bytes × Option PrefixCode) := fun bytes => do
  let (first, _) ← readLittleEndian 1 bytes
  let kind := first % 4
  let form := first / 4 % 4
  if kind < 2 then
    let width := match form with
      | 1 => 2
      | 3 => 3
      | _ => 1
    let (header, bytes) ← readLittleEndian width bytes
    let size := if width = 1 then header / 8 else header / 16
    let stored := if kind = 0 then size else 1
    if size > limit || bytes.length < stored then none
    else
      let literals :=
        if kind = 0 then bytes.take size else List.replicate size (bytes.head?.getD 0)
      some ((literals, code), bytes.drop stored)
  else
    let (width, sizeWidth) := match form with
      | 2 => (4, 14)
      | 3 => (5, 18)
      | _ => (3, 10)
    let (header, bytes) ← readLittleEndian width bytes
    let size := header / 16 % 1 <<< sizeWidth
    let stored := header / 16 / 1 <<< sizeWidth
    if size > limit || bytes.length < stored then none
    else
      let (code, coded) ←
        if kind = 2 then PrefixCode.read (bytes.take stored)
        else code.map (·, bytes.take stored)
      let literals ← if form = 0 then code.decode size coded else code.decodeParts size coded
      some ((literals, some code), bytes.drop stored)

/-- The number of sequences, in one to three bytes. -/
def readSequenceCount : Decoder Nat
  | [] => none
  | byte :: bytes =>
    if byte < 128 then some (byte.toNat, bytes)
    else if byte = 255 then (readLittleEndian 2 bytes).map fun (n, rest) => (n + 0x7F00, rest)
    else (readLittleEndian 1 bytes).map fun (n, rest) => ((byte.toNat - 128) * 256 + n, rest)

/-- Takes in a compressed block, which has no more literal bytes than the limit. -/
def decompress (progress : Progress) (limit : Nat) (bytes : Bytes) : Option Progress := do
  let ((literals, code), bytes) ← readLiterals progress.code limit bytes
  let (count, bytes) ← readSequenceCount bytes
  if count = 0 then
    if bytes.isEmpty then
      some { progress with content := progress.content ++ literals, code := code }
    else none
  else
    let (tables, bytes) ← SequenceTables.read progress.tables bytes
    let sequences ← tables.readSequences (count - 1) bytes
    let (content, recent) ← arrange progress.content progress.recent literals sequences
    some ⟨content, code, some tables, recent⟩

/-- Takes in a block of a kind and size. -/
def readBlock (progress : Progress) (kind size limit : Nat) : Decoder Progress := fun bytes => do
  let stored := if kind = 1 then 1 else size
  if bytes.length < stored then none
  else
    let after ←
      match kind with
      | 0 => some { progress with content := progress.content ++ bytes.take size }
      | 1 =>
        let repeated := List.replicate size (bytes.head?.getD 0)
        some { progress with content := progress.content ++ repeated }
      | 2 => progress.decompress limit (bytes.take size)
      | _ => none
    some (after, bytes.drop stored)

end Progress

end LivePreview.Binary.Frame
