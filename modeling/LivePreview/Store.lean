import LivePreview.Broadcast
import LivePreview.Store.Change
import LivePreview.Store.Error
import LivePreview.Text.Search

/-!
# Stores

A store is a file tree with subscribers. An operation on it answers or fails, and leaves a store
either way: first it looks at the tree and makes sure of everything that it needs, then it changes
the tree, and last it announces the change.
-/
namespace LivePreview

structure Store where
  root : Node := .empty .root
  /-- The receivers of change announcements. -/
  changes : Broadcast Change := {}
deriving Repr

/-- Operations on a store that can fail. A failure does not take back what was done before it. -/
abbrev StoreM := EStateM StoreError Store

namespace Store

def empty : Store := {}

/-! ### Reading -/

def node? (store : Store) (path : Path) : Option Node := store.root.get? path.segments

def isFile (store : Store) (path : Path) : Bool := (store.node? path).any Node.isFile

/-- Reads a written path for an operation. -/
def parse (raw : String) : Except StoreError Path := (Path.parse raw).mapError .invalidPath

/-- The content of the file at a path. -/
def contentAt (store : Store) (path : Path) : Except StoreError String :=
  match (store.node? path).bind Node.content? with
  | some content => .ok content
  | none => .error (.notFound path)

def read (store : Store) (raw : String) : Except StoreError String := do
  store.contentAt (← parse raw)

/-- A path that cannot be read names nothing. -/
def exists? (store : Store) (raw : String) : Bool :=
  match Path.parse raw with
  | .ok path => (store.node? path).isSome
  | .error _ => false

/-- The children of a directory in the order of their names. -/
def list (store : Store) (raw : String) : Except StoreError (List (Path × Node)) := do
  let path ← parse raw
  match store.node? path with
  | none => .error (.notFound path)
  | some node =>
    match node.children? with
    | none => .error (.kindConflict path .directory)
    | some children => .ok (children.map fun (_, node) => (node.path, node))

/-- Every node with the path that it stores, the root first. -/
def entries (store : Store) : List (Path × Node) := store.root.nodes.map fun node => (node.path, node)

/-- Every file with its path, depth first and siblings by name. -/
def files (store : Store) : List (Path × Node) := store.entries.filter (·.2.isFile)

def fileCount (store : Store) : Nat := store.files.length

/-- Equal trees; subscribers do not count. -/
def sameTree (a b : Store) : Bool := a.root.same b.root

/-! ### Subscribing -/

def subscribe (store : Store) : Store := { store with changes := store.changes.subscribe [] }

def announce (store : Store) (change : Change) : Store :=
  { store with changes := store.changes.publish change }

/-! ### Changing -/

/-- The content of a file that an operation wants to change or take away. -/
def requireFile (store : Store) (path : Path) : Except StoreError String :=
  match store.node? path with
  | none => .error (.notFound path)
  | some (.directory _ _) => .error (.kindConflict path .file)
  | some (.file _ content) => .ok content

/-- No file stands where a directory on the way to the path has to be. -/
def requireAncestors (store : Store) (path : Path) : Except StoreError Unit :=
  match store.root.blockedAfter? path.segments with
  | none => .ok ()
  | some count => .error (.kindConflict ⟨path.segments.take count⟩ .directory)

/-- Puts a node at the path that it stores, with the directories that are missing on the way. -/
def insert (store : Store) (node : Node) : Store :=
  { store with root := store.root.put .root node.path.segments node }

def remove (store : Store) (path : Path) : Store :=
  { store with root := store.root.remove path.segments }

/-- Gives the file at a path another content. -/
def write (store : Store) (path : Path) (content : String) : Store :=
  { store with root := store.root.modify (.setContent content) path.segments }

/-! ### Operations -/

/-- A question to the store, which changes nothing whether it is answered or not. -/
def ask {α : Type} (query : Store → Except StoreError α) : StoreM α := fun store =>
  match query store with
  | .ok answer => .ok answer store
  | .error cause => .error cause store

def ensure (condition : Prop) [Decidable condition] (cause : StoreError) : Except StoreError Unit :=
  if condition then .ok () else .error cause

def notify (change : Change) : StoreM Unit := modify (·.announce change)

/-- Gives a file a new content and announces it. -/
def overwrite (path : Path) (content : String) : StoreM Unit := do
  modify (·.write path content)
  notify ⟨.fileUpdated, path, none⟩

/-- Takes the node at a path out of its directory. The root is in none and stays. -/
def detach (path : Path) : StoreM (Option Node) :=
  modifyGet fun store => (if path.isRoot then none else store.node? path, store.remove path)

/-- Takes the node at one path out of its directory and puts it at another. -/
def move (source target : Path) : StoreM Unit := do
  match ← detach source with
  | some node => modify (·.insert (node.relocate target))
  | none => pure ()

/-- Creates a file, or gives the file that stands there the content. -/
def createFile (raw content : String) : StoreM Unit := do
  let path ← ask fun _ => parse raw
  match (← get).node? path with
  | some (.directory _ _) => throw (.kindConflict path .file)
  | some (.file _ _) => overwrite path content
  | none =>
    ask (·.requireAncestors path)
    modify (·.insert (.file path content))
    notify ⟨.fileCreated, path, none⟩

def updateFile (raw content : String) : StoreM Unit := do
  let path ← ask fun _ => parse raw
  let _ ← ask (·.requireFile path)
  overwrite path content

/-- Creates a directory. One that stands there already is left alone, and nothing is announced. -/
def createDirectory (raw : String) : StoreM Unit := do
  let path ← ask fun _ => parse raw
  match (← get).node? path with
  | some (.directory _ _) => pure ()
  | some (.file _ _) => throw (.kindConflict path .directory)
  | none =>
    ask (·.requireAncestors path)
    modify (·.insert (.empty path))
    notify ⟨.directoryCreated, path, none⟩

/-- Replaces the only occurrence of `old` in a file. -/
def replaceInFile (raw old new : String) : StoreM Unit := do
  let path ← ask fun _ => parse raw
  let content ← ask (·.contentAt path)
  ask fun _ => ensure (old ≠ "") (.editMismatch path .emptyPattern)
  match Text.occurrences old content with
  | 0 => throw (.editMismatch path .absent)
  | 1 =>
    let _ ← ask (·.requireFile path)
    overwrite path (Text.replaceFirst old new content)
  | occurrences => throw (.editMismatch path (.ambiguous occurrences))

/-- Makes `text` a line of its own behind the first `line` lines of a file. -/
def insertInFile (raw : String) (line : Nat) (text : String) : StoreM Unit := do
  let path ← ask fun _ => parse raw
  let content ← ask (·.contentAt path)
  let lines := Text.splitLines content
  ask fun _ => ensure (line ≤ lines.length) (.editMismatch path (.pastEnd line lines.length))
  let _ ← ask (·.requireFile path)
  overwrite path (Text.joinLines (lines.take line ++ text :: lines.drop line))

def deleteFile (raw : String) : StoreM Unit := do
  let path ← ask fun _ => parse raw
  let _ ← ask (·.requireFile path)
  let _ ← detach path
  notify ⟨.fileDeleted, path, none⟩

/-- Deletes a directory and everything below it. -/
def deleteDirectory (raw : String) : StoreM Unit := do
  let path ← ask fun _ => parse raw
  ask fun _ => ensure (path.isRoot = false) (.invalidPath (.rootOperation .deleted))
  match (← get).node? path with
  | none => throw (.notFound path)
  | some (.file _ _) => throw (.kindConflict path .directory)
  | some (.directory _ _) =>
    let _ ← detach path
    notify ⟨.directoryDeleted, path, none⟩

/-- Moves a file or directory to a path where nothing stands. Moving it to where it is changes
nothing, and nothing is announced. -/
def rename (rawSource rawTarget : String) : StoreM Unit := do
  let source ← ask fun _ => parse rawSource
  let target ← ask fun _ => parse rawTarget
  ask fun _ => ensure (source.isRoot = false ∧ target.isRoot = false)
    (.invalidPath (.rootOperation .renamed))
  ask fun store => ensure (store.node? source).isSome (.notFound source)
  if source = target then pure ()
  else
    ask fun _ => ensure (target.startsWith source = false)
      (.invalidPath (.intoOwnSubtree source target))
    ask fun store => ensure (store.node? target = none) (.pathCollision target)
    ask (·.requireAncestors target)
    move source target
    notify ⟨.renamed, target, some source⟩

end Store

end LivePreview
