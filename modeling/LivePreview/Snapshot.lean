import LivePreview.Binary.Codec
import LivePreview.Binary.Frame
import LivePreview.Store

/-!
# Snapshots

A snapshot lists every node of a store by its written path. Entries stand in the order of their
paths and children in the order of their names, so stores with equal trees have equal snapshots and
equal bytes. Reading a snapshot back checks that its entries form a tree.
-/
namespace LivePreview

open Binary

/-- One node of a snapshot. A file has a content and no children, a directory the reverse. -/
structure SnapshotEntry where
  kind : NodeKind
  content : Option String
  children : Option (List String)
deriving DecidableEq, Repr

structure Snapshot where
  entries : List (String × SnapshotEntry)
deriving DecidableEq, Repr

/-- What is wrong with an entry. -/
inductive EntryDefect where
  | missing
  | invalidChild (name : String)
  | repeatedChild (name : String)
  | mixedKind
  | rootNotDirectory
  | unlisted
deriving DecidableEq, Repr

namespace EntryDefect

def reason : EntryDefect → String
  | missing => "entry is missing"
  | invalidChild name => "invalid child name '" ++ name ++ "'"
  | repeatedChild name => "child '" ++ name ++ "' is listed twice"
  | mixedKind => "kind tag does not match the entry's fields"
  | rootNotDirectory => "the root entry is not a directory"
  | unlisted => "entry is not listed by its parent directory"

end EntryDefect

inductive SnapshotError where
  | undecodable
  | notCompressed
  | unreadable
  | malformed (path : String) (defect : EntryDefect)
deriving DecidableEq, Repr

namespace SnapshotError

def message : SnapshotError → String
  | undecodable => "Failed to decode snapshot"
  | notCompressed => "Failed to (de)compress snapshot"
  | unreadable => "Failed to access snapshot file"
  | malformed path defect => "Malformed snapshot entry '" ++ path ++ "': " ++ defect.reason

end SnapshotError

/-! ### Stores to snapshots and back -/

def SnapshotEntry.ofNode : Node → SnapshotEntry
  | .file _ content => ⟨.file, some content, none⟩
  | .directory _ children => ⟨.directory, none, some (children.map (·.1))⟩

/-- The snapshot of a store. -/
def Store.snapshot (store : Store) : Snapshot :=
  ⟨Table.ofList (store.entries.map fun (path, node) => (path.text, .ofNode node))⟩

namespace Snapshot

/-- Children already built, in the order of their names, with the next ones added in the order in
which the entry lists them. -/
def addChildren (build : Path → Except SnapshotError Node) (path : Path) :
    List (String × Node) → List String → Except SnapshotError (List (String × Node))
  | children, [] => .ok children
  | children, name :: rest => do
    if ¬Path.IsName name then .error (.malformed path.text (.invalidChild name))
    else if Table.contains name children then
      .error (.malformed path.text (.repeatedChild name))
    else
      let child ← build (path.child name)
      addChildren build path (Table.insert name child children) rest

/-- The node at a path, built from its entry and the entries below it. Each level of `depth` adds to
the written path, so when `depth` exceeds the length of every key, what lies deeper is missing. -/
def node (entries : List (String × SnapshotEntry)) : Nat → Path → Except SnapshotError Node
  | 0, path => .error (.malformed path.text .missing)
  | depth + 1, path =>
    match Table.get? path.text entries with
    | none => .error (.malformed path.text .missing)
    | some ⟨.file, some content, none⟩ => .ok (.file path content)
    | some ⟨.directory, none, some names⟩ =>
      (addChildren (node entries depth) path [] names).map (.directory path)
    | some _ => .error (.malformed path.text .mixedKind)

/-- A depth that no chain of entries reaches. -/
def depthLimit (snapshot : Snapshot) : Nat :=
  snapshot.entries.foldl (fun limit entry => max limit entry.1.length) 0 + 1

/-- The store that a snapshot describes. Every entry has to be listed by its parent directory. -/
def toStore (snapshot : Snapshot) : Except SnapshotError Store := do
  let root ← node snapshot.entries snapshot.depthLimit .root
  if root.isFile then .error (.malformed "/" .rootNotDirectory)
  else
    let reached := root.nodes.map (·.path.text)
    match snapshot.entries.find? fun entry => entry.1 ∉ reached with
    | some (path, _) => .error (.malformed path .unlisted)
    | none => .ok { root }

/-! ### Bytes -/

def encodeKind : NodeKind → Bytes
  | .file => encodeNat 0
  | .directory => encodeNat 1

def decodeKind : Decoder NodeKind := fun bytes => do
  match ← decodeTag bytes with
  | (0, rest) => some (.file, rest)
  | (1, rest) => some (.directory, rest)
  | _ => none

def encodeEntry (entry : String × SnapshotEntry) : Bytes :=
  encodeString entry.1 ++ encodeKind entry.2.kind ++ encodeOption encodeString entry.2.content ++
    encodeOption (encodeList encodeString) entry.2.children

def decodeEntry : Decoder (String × SnapshotEntry) := fun bytes => do
  let (path, bytes) ← decodeString bytes
  let (kind, bytes) ← decodeKind bytes
  let (content, bytes) ← decodeOption decodeString bytes
  let (children, bytes) ← decodeOption (decodeList decodeString) bytes
  some ((path, ⟨kind, content, children⟩), bytes)

def encode (snapshot : Snapshot) : Bytes := encodeList encodeEntry snapshot.entries

/-- Reads the bytes of a snapshot; entries may stand in any order, and what follows them is left
alone. -/
def decode (bytes : Bytes) : Except SnapshotError Snapshot :=
  match decodeList decodeEntry bytes with
  | some (entries, _) => .ok ⟨Table.ofList entries⟩
  | none => .error .undecodable

/-- The form in which snapshots are kept in files. -/
def toBytes (snapshot : Snapshot) : Bytes := Frame.pack snapshot.encode

def ofBytes (bytes : Bytes) : Except SnapshotError Snapshot :=
  match Frame.unpack bytes with
  | some content => decode content
  | none => .error .notCompressed

end Snapshot

end LivePreview
