import LivePreview.Binary.Frame.StateTable

/-!
# Sequences

A compressed block copies literal bytes and repeats of earlier content in turns. A sequence says how
many literal bytes come next, and how far back and how long the repeat behind them is.
-/
namespace LivePreview.Binary.Frame

/-- One turn. Its distance is coded: up to three it stands for one of the last distances. -/
structure Sequence where
  literals : Nat
  distanceCode : Nat
  length : Nat
deriving DecidableEq, Repr

/-- What is fixed for one of the three numbers of a sequence. -/
structure Field where
  /-- For each symbol, the bits that tell its numbers apart. -/
  widths : List Nat
  /-- The least number. -/
  least : Nat
  accuracyLimit : Nat
  /-- The table of blocks that bring none. -/
  usual : StateTable

namespace Field

/-- The numbers of a symbol follow those of the symbols before it. -/
def first (field : Field) (symbol : Nat) : Nat :=
  field.least + (field.widths.take symbol).foldr (fun width total => 1 <<< width + total) 0

/-- The number that a symbol and the bits behind it make. -/
def read (field : Field) (symbol : Nat) (bits : Bits) : Option (Nat × Bits) :=
  (readHigh (field.widths.getD symbol 0) bits).map fun (n, bits) => (field.first symbol + n, bits)

/-- The shares of states when each symbol has as many as listed, and `rare` more have less than
one. -/
def shares (counts : List Nat) (rare : Nat) : List Share :=
  counts.map .states ++ List.replicate rare .rare

def literals : Field where
  widths := List.replicate 16 0 ++ [1, 1, 1, 1, 2, 2, 3, 3, 4] ++ (List.range 11).map (· + 6)
  least := 0
  accuracyLimit := 9
  usual := .ofShares 6 (shares ([4, 3] ++ List.replicate 11 2 ++ [1, 1, 1] ++ List.replicate 9 2
    ++ [3, 2, 1, 1, 1, 1, 1]) 4)

def distance : Field where
  widths := List.range 32
  least := 1
  accuracyLimit := 8
  usual := .ofShares 5 (shares (List.replicate 6 1 ++ [2, 2, 2] ++ List.replicate 15 1) 5)

def length : Field where
  widths := List.replicate 32 0 ++ [1, 1, 1, 1, 2, 2, 3, 3, 4, 4, 5] ++ (List.range 10).map (· + 7)
  least := 3
  accuracyLimit := 9
  usual := .ofShares 6 (shares ([1, 4, 3] ++ List.replicate 6 2 ++ List.replicate 37 1) 7)

/-- Reads the table of a block: the usual one, one symbol, a described one, or the one before. -/
def readTable (field : Field) (kind : Nat) (last : Option StateTable) : Decoder StateTable :=
  fun bytes =>
    match kind with
    | 0 => some (field.usual, bytes)
    | 1 => do
      let (symbol, bytes) ← readLittleEndian 1 bytes
      if symbol < field.widths.length then some (.constant symbol, bytes) else none
    | 2 => StateTable.read field.widths.length field.accuracyLimit bytes
    | _ => last.map (·, bytes)

end Field

/-- A table for each number of a sequence. -/
structure SequenceTables where
  literals : StateTable
  distance : StateTable
  length : StateTable

namespace SequenceTables

/-- Reads the tables that a block uses. -/
def read (last : Option SequenceTables) : Decoder SequenceTables := fun bytes => do
  let (kinds, bytes) ← readLittleEndian 1 bytes
  if kinds % 4 ≠ 0 then none
  else
    let (literals, bytes) ←
      Field.literals.readTable (kinds / 64) (last.map (·.literals)) bytes
    let (distance, bytes) ←
      Field.distance.readTable (kinds / 16 % 4) (last.map (·.distance)) bytes
    let (length, bytes) ← Field.length.readTable (kinds / 4 % 4) (last.map (·.length)) bytes
    some (⟨literals, distance, length⟩, bytes)

/-- The numbers that three states stand for. -/
def readSequence (literals distance length : State) (bits : Bits) : Option (Sequence × Bits) := do
  let (distanceCode, bits) ← Field.distance.read distance.symbol bits
  let (length, bits) ← Field.length.read length.symbol bits
  let (literals, bits) ← Field.literals.read literals.symbol bits
  some (⟨literals, distanceCode, length⟩, bits)

/-- That many sequences, and one more, onto those before. All bits are used up. -/
def readOnto (tables : SequenceTables) (sequences : Array Sequence) :
    Nat → State → State → State → Bits → Option (Array Sequence)
  | count, literals, distance, length, bits =>
    match readSequence literals distance length bits with
    | none => none
    | some (sequence, bits) =>
      match count with
      | 0 => if bits.isEmpty then some (sequences.push sequence) else none
      | count + 1 =>
        match advance literals distance length bits with
        | none => none
        | some (literals, distance, length, bits) =>
          readOnto tables (sequences.push sequence) count literals distance length bits
where
  advance (literals distance length : State) (bits : Bits) :
      Option (State × State × State × Bits) := do
    let (literals, bits) ← tables.literals.next literals bits
    let (length, bits) ← tables.length.next length bits
    let (distance, bits) ← tables.distance.next distance bits
    some (literals, distance, length, bits)

/-- The `count + 1` sequences that the bytes hold. -/
def readSequences (tables : SequenceTables) (count : Nat) (bytes : Bytes) :
    Option (List Sequence) := do
  let bits ← descending bytes
  let (literals, bits) ← tables.literals.start bits
  let (distance, bits) ← tables.distance.start bits
  let (length, bits) ← tables.length.start bits
  let sequences ← tables.readOnto #[] count literals distance length bits
  some sequences.toList

end SequenceTables

/-- The last three distances, the latest first. -/
structure RecentDistances where
  first : Nat
  second : Nat
  third : Nat
deriving DecidableEq, Repr

namespace RecentDistances

def start : RecentDistances := ⟨1, 4, 8⟩

/-- The distance of a sequence, and the last three with it. A repeat right behind another does not
use the latest distance again, so its codes stand for the next ones. -/
def resolve (recent : RecentDistances) (sequence : Sequence) : Nat × RecentDistances :=
  let distance := sequence.distanceCode - 3
  let code := sequence.distanceCode + if sequence.literals = 0 then 1 else 0
  if sequence.distanceCode > 3 then (distance, ⟨distance, recent.first, recent.second⟩)
  else
    match code with
    | 1 => (recent.first, recent)
    | 2 => (recent.second, ⟨recent.second, recent.first, recent.third⟩)
    | 3 => (recent.third, ⟨recent.third, recent.first, recent.second⟩)
    | _ => (recent.first - 1, ⟨recent.first - 1, recent.first, recent.second⟩)

end RecentDistances

end LivePreview.Binary.Frame
