/-!
# Compact binary form

Encoders and decoders over byte lists. Numbers take one byte up to 250 and otherwise a marker byte
with two, four or eight little-endian bytes behind it; texts and lists start with their length,
optional values with 0 or 1. A decoder answers the value and the bytes behind it.
-/
namespace LivePreview.Binary

abbrev Bytes := List UInt8

abbrev Decoder (α : Type) := Bytes → Option (α × Bytes)

/-- The lowest `width` bytes of a number, the lowest first. -/
def littleEndian : Nat → Nat → Bytes
  | 0, _ => []
  | width + 1, n => UInt8.ofNat (n % 256) :: littleEndian width (n / 256)

def readLittleEndian : Nat → Decoder Nat
  | 0, bytes => some (0, bytes)
  | _ + 1, [] => none
  | width + 1, byte :: bytes =>
    (readLittleEndian width bytes).map fun (n, rest) => (byte.toNat + 256 * n, rest)

/-- The marker bytes of the wider forms of a number. -/
def marker16 : UInt8 := 251
def marker32 : UInt8 := 252
def marker64 : UInt8 := 253

/-- The shortest form of a number below `2 ^ 64`. -/
def encodeNat (n : Nat) : Bytes :=
  if n < 251 then [UInt8.ofNat n]
  else if n < UInt16.size then marker16 :: littleEndian 2 n
  else if n < UInt32.size then marker32 :: littleEndian 4 n
  else marker64 :: littleEndian 8 n

/-- Reads a number of at most eight bytes; longer forms than needed are accepted. -/
def decodeNat : Decoder Nat
  | [] => none
  | byte :: bytes =>
    if byte < marker16 then some (byte.toNat, bytes)
    else if byte = marker16 then readLittleEndian 2 bytes
    else if byte = marker32 then readLittleEndian 4 bytes
    else if byte = marker64 then readLittleEndian 8 bytes
    else none

/-- Reads the number of a variant, which never takes the widest form. -/
def decodeTag : Decoder Nat
  | [] => none
  | byte :: bytes => if byte = marker64 then none else decodeNat (byte :: bytes)

def encodeString (text : String) : Bytes :=
  let bytes := text.toUTF8.data.toList
  encodeNat bytes.length ++ bytes

def decodeString : Decoder String := fun bytes => do
  let (length, bytes) ← decodeNat bytes
  if bytes.length < length then none
  else
    let text ← String.fromUTF8? ⟨(bytes.take length).toArray⟩
    some (text, bytes.drop length)

def encodeOption (encode : α → Bytes) : Option α → Bytes
  | none => [0]
  | some a => 1 :: encode a

def decodeOption (decode : Decoder α) : Decoder (Option α)
  | [] => none
  | byte :: bytes =>
    if byte = 0 then some (none, bytes)
    else if byte = 1 then (decode bytes).map fun (a, rest) => (some a, rest)
    else none

/-- Reads that many items. -/
def decodeItems (decode : Decoder α) : Nat → Decoder (List α)
  | 0, bytes => some ([], bytes)
  | count + 1, bytes => do
    let (a, bytes) ← decode bytes
    let (rest, bytes) ← decodeItems decode count bytes
    some (a :: rest, bytes)

def encodeList (encode : α → Bytes) (items : List α) : Bytes :=
  encodeNat items.length ++ items.flatMap encode

def decodeList (decode : Decoder α) : Decoder (List α) := fun bytes => do
  let (count, bytes) ← decodeNat bytes
  decodeItems decode count bytes

end LivePreview.Binary
