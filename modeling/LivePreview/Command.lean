import LivePreview.Binary.Codec
import LivePreview.Store

/-!
# Commands

A command is one edit of a store, as data: it can be shown, encoded, applied and replayed.
-/
namespace LivePreview

open Binary

inductive Command where
  | createFile (path content : String)
  | updateFile (path content : String)
  | createDirectory (path : String)
  | deleteFile (path : String)
  | deleteDirectory (path : String)
  | rename (source target : String)
  | replaceInFile (path old new : String)
  | insertInFile (path : String) (line : UInt64) (text : String)
deriving DecidableEq, Repr

namespace Command

/-- One line for people to read. -/
def text : Command → String
  | createFile path _ => "create " ++ path
  | updateFile path _ => "update " ++ path
  | createDirectory path => "mkdir " ++ path
  | deleteFile path => "delete " ++ path
  | deleteDirectory path => "rmdir " ++ path
  | rename source target => "rename " ++ source ++ " -> " ++ target
  | replaceInFile path _ _ => "replace in " ++ path
  | insertInFile path line _ => "insert into " ++ path ++ " after line " ++ toString line.toNat

/-- Carries out the command. -/
def apply : Command → StoreM Unit
  | createFile path content => Store.createFile path content
  | updateFile path content => Store.updateFile path content
  | createDirectory path => Store.createDirectory path
  | deleteFile path => Store.deleteFile path
  | deleteDirectory path => Store.deleteDirectory path
  | rename source target => Store.rename source target
  | replaceInFile path old new => Store.replaceInFile path old new
  | insertInFile path line text => Store.insertInFile path line.toNat text

/-! ### Bytes -/

def encode : Command → Bytes
  | createFile path content => encodeNat 0 ++ encodeString path ++ encodeString content
  | updateFile path content => encodeNat 1 ++ encodeString path ++ encodeString content
  | createDirectory path => encodeNat 2 ++ encodeString path
  | deleteFile path => encodeNat 3 ++ encodeString path
  | deleteDirectory path => encodeNat 4 ++ encodeString path
  | rename source target => encodeNat 5 ++ encodeString source ++ encodeString target
  | replaceInFile path old new =>
    encodeNat 6 ++ encodeString path ++ encodeString old ++ encodeString new
  | insertInFile path line text =>
    encodeNat 7 ++ encodeString path ++ encodeNat line.toNat ++ encodeString text

/-- Two texts in a row. -/
def decodePair (make : String → String → Command) : Decoder Command := fun bytes => do
  let (first, bytes) ← decodeString bytes
  let (second, bytes) ← decodeString bytes
  some (make first second, bytes)

def decodeSingle (make : String → Command) : Decoder Command := fun bytes => do
  let (path, bytes) ← decodeString bytes
  some (make path, bytes)

def decode : Decoder Command := fun bytes => do
  let (tag, bytes) ← decodeTag bytes
  match tag with
  | 0 => decodePair createFile bytes
  | 1 => decodePair updateFile bytes
  | 2 => decodeSingle createDirectory bytes
  | 3 => decodeSingle deleteFile bytes
  | 4 => decodeSingle deleteDirectory bytes
  | 5 => decodePair rename bytes
  | 6 =>
    let (path, bytes) ← decodeString bytes
    decodePair (replaceInFile path) bytes
  | 7 =>
    let (path, bytes) ← decodeString bytes
    let (line, bytes) ← decodeNat bytes
    decodeSingle (insertInFile path (UInt64.ofNat line)) bytes
  | _ => none

end Command

/-! ### Replaying -/

/-- The command at `index` failed. -/
structure ReplayError where
  index : Nat
  command : Command
  cause : StoreError
deriving DecidableEq, Repr

namespace ReplayError

def message (error : ReplayError) : String :=
  "Command #" ++ toString error.index ++ " (" ++ error.command.text ++ ") failed"

end ReplayError

/-- Applies commands up to the first that fails. Answers the store that is left, and how many
commands were applied or the failure; `applied` counts the commands before. -/
def Store.replayFrom (store : Store) (applied : Nat) :
    List Command → Store × Except ReplayError Nat
  | [] => (store, .ok applied)
  | command :: rest =>
    match command.apply store with
    | .ok () next => next.replayFrom (applied + 1) rest
    | .error cause left => (left, .error ⟨applied, command, cause⟩)

def Store.replayCounting (store : Store) (commands : List Command) :
    Store × Except ReplayError Nat :=
  store.replayFrom 0 commands

/-- The store that a replay leaves, and its failure if there is one. -/
def Store.replay (store : Store) (commands : List Command) : Store × Option ReplayError :=
  match store.replayCounting commands with
  | (store, .ok _) => (store, none)
  | (store, .error error) => (store, some error)

end LivePreview
