import LivePreview.Binary.Frame.Bits

/-!
# State tables

An entropy code whose states each stand for a symbol and say how many bits lead to which next state.
A symbol has the more states, and so takes the fewer bits, the larger its share of the table is.
-/
namespace LivePreview.Binary.Frame

/-- What a symbol has of a table. -/
inductive Share where
  /-- Less than one state; it gets one at the table's end. -/
  | rare
  | states (count : Nat)
deriving DecidableEq, Repr

def Share.count : Share → Nat
  | rare => 1
  | states count => count

structure State where
  symbol : Nat
  /-- The bits read to leave the state. -/
  width : Nat
  /-- The first of the states that they choose from. -/
  base : Nat
deriving DecidableEq, Repr

/-- A table of `2 ^ accuracy` states. -/
structure StateTable where
  accuracy : Nat
  states : Array State
deriving DecidableEq, Repr

namespace StateTable

/-- The table of one symbol, which takes no bits. -/
def constant (symbol : Nat) : StateTable := ⟨0, #[⟨symbol, 0, 0⟩]⟩

/-- The symbol of each state: rare ones from the end, the others in steps over the places left. -/
def symbols (accuracy : Nat) (shares : List Share) : Array Nat :=
  let size := 1 <<< accuracy
  let rare := shares.zipIdx.filterMap fun (share, symbol) =>
    if share = .rare then some symbol else none
  let common := shares.zipIdx.flatMap fun (share, symbol) =>
    if share = .rare then [] else List.replicate share.count symbol
  let step := size / 2 + size / 8 + 3
  let places := ((List.range size).map (· * step % size)).filter (· < size - rare.length)
  let placed := (rare.zipIdx.map fun (symbol, i) => (size - 1 - i, symbol)) ++ places.zip common
  placed.foldl (fun symbols (place, symbol) => symbols.setIfInBounds place symbol)
    (Array.replicate size 0)

/-- Numbers the states of each symbol on from `next`, which gives a state's way out. -/
def number (accuracy : Nat) (next : Array Nat) : List Nat → List State
  | [] => []
  | symbol :: rest =>
    let n := next.getD symbol 1
    let width := accuracy - Nat.log2 n
    ⟨symbol, width, n <<< width - 1 <<< accuracy⟩ ::
      number accuracy (next.setIfInBounds symbol (n + 1)) rest

def ofShares (accuracy : Nat) (shares : List Share) : StateTable :=
  ⟨accuracy, (number accuracy (shares.map Share.count).toArray
    (symbols accuracy shares).toList).toArray⟩

/-- A number up to `limit`; the low numbers take one bit less than the others. -/
def readUpTo (limit : Nat) (bits : Bits) : Option (Nat × Bits) := do
  let width := Nat.log2 limit
  let short := 1 <<< (width + 1) - 1 - limit
  let (low, bits) ← readLow width bits
  if low < short then some (low, bits)
  else
    let (high, bits) ← readLow 1 bits
    some (if high = 0 then low else low + 1 <<< width - short, bits)

/-- How many more symbols have no state: two bits at a time, as long as they are both set. -/
def readRun : Bits → Option (Nat × Bits)
  | true :: true :: bits => (readRun bits).map fun (n, rest) => (n + 3, rest)
  | low :: high :: bits => some (low.toNat + 2 * high.toNat, bits)
  | _ => none

/-- The shares of at most that many symbols, which together take `left` states. -/
def readShares (symbolCount left : Nat) (bits : Bits) : Option (List Share × Bits) :=
  match symbolCount, left with
  | _, 0 => some ([], bits)
  | 0, _ + 1 => none
  | symbolCount + 1, left + 1 => do
    match ← readUpTo (left + 2) bits with
    | (0, bits) =>
      let (shares, bits) ← readShares symbolCount left bits
      some (.rare :: shares, bits)
    | (1, bits) =>
      let (run, bits) ← readRun bits
      if symbolCount < run then none
      else
        let (shares, bits) ← readShares (symbolCount - run) (left + 1) bits
        some (List.replicate (run + 1) (.states 0) ++ shares, bits)
    | (count + 2, bits) =>
      let (shares, bits) ← readShares symbolCount (left - count) bits
      some (.states (count + 1) :: shares, bits)
termination_by symbolCount
decreasing_by
  · exact Nat.lt_succ_self _
  · exact Nat.lt_succ_of_le (Nat.sub_le _ _)
  · exact Nat.lt_succ_self _

/-- Reads the description of a table, which ends with a whole byte. -/
def read (symbolCount accuracyLimit : Nat) : Decoder StateTable := fun bytes => do
  let (accuracy, bits) ← readLow 4 (ascending bytes)
  if accuracyLimit < accuracy + 5 then none
  else
    let (shares, bits) ← readShares symbolCount (1 <<< (accuracy + 5)) bits
    some (ofShares (accuracy + 5) shares, bytes.drop (bytes.length - bits.length / 8))

/-- The state that the first bits choose. -/
def start (table : StateTable) (bits : Bits) : Option (State × Bits) := do
  let (i, bits) ← readHigh table.accuracy bits
  some (← table.states[i]?, bits)

/-- The state after `state`. -/
def next (table : StateTable) (state : State) (bits : Bits) : Option (State × Bits) := do
  let (i, bits) ← readHigh state.width bits
  some (← table.states[state.base + i]?, bits)

end StateTable

end LivePreview.Binary.Frame
