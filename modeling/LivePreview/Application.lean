import LivePreview.Command.Script
import LivePreview.Preview.Render
import LivePreview.Session
import LivePreview.Snapshot

/-!
# The application

One run replays a command script on a store and builds the preview from a replica that follows the
store by its command log. `run` takes the contents of files and answers what is to be printed and
written.
-/
namespace LivePreview

open Binary

/-- What the attempt to read a file came to. -/
inductive FileContent where
  | absent
  | unreadable
  | bytes (bytes : Bytes)
deriving DecidableEq, Repr

/-- A file by the name that errors give it. -/
structure FileInput where
  name : String
  content : FileContent
deriving DecidableEq, Repr

structure RunInput where
  config : FileInput
  script : FileInput
  /-- The snapshot to start from, if not from an empty store. -/
  snapshot : Option FileContent := none
  printImportMap : Bool := false
  colour : Bool := false
deriving DecidableEq, Repr

inductive ApplicationError where
  | config (cause : ConfigError)
  | script (cause : ScriptError)
  | snapshot (cause : SnapshotError)
  /-- The replica is not what the store is. -/
  | replicaDivergence (sourceEntries replicaEntries : Nat)
deriving DecidableEq, Repr

namespace ApplicationError

def message : ApplicationError → String
  | config _ => "Critical failure encountered while loading the preview config"
  | script _ => "Critical failure encountered while loading the command script"
  | snapshot _ => "Critical failure encountered while handling a snapshot"
  | replicaDivergence sourceEntries replicaEntries =>
    "Preview replica diverged from the source store (" ++ toString replicaEntries ++ " vs " ++
      toString sourceEntries ++ " entries)"

/-- The message of what lies behind the error. -/
def cause? : ApplicationError → Option String
  | config cause => some cause.message
  | script cause => some cause.message
  | snapshot cause => some cause.message
  | replicaDivergence _ _ => none

end ApplicationError

structure Outcome where
  status : BuildStatus
  /-- The store after the script. -/
  snapshot : Snapshot
  rejected : Nat
  /-- What the run prints. -/
  output : String
deriving DecidableEq, Repr

namespace Application

/-! ### Reading the input -/

def utf8? (bytes : Bytes) : Option String := String.fromUTF8? ⟨bytes.toArray⟩

/-- The configuration of a file. Without the file the defaults hold. -/
def readConfig (file : FileInput) : Except ConfigError Config :=
  match file.content with
  | .absent => .ok {}
  | .unreadable => .error (.unreadable file.name)
  | .bytes bytes =>
    match utf8? bytes with
    | some text => Config.parse text
    | none => .error (.notText file.name)

def readScript (file : FileInput) : Except ScriptError CommandScript :=
  match file.content with
  | .absent | .unreadable => .error (.unreadable file.name)
  | .bytes bytes =>
    match utf8? bytes with
    | some text => CommandScript.parse text
    | none => .error (.notText file.name)

/-- The store to start from. -/
def readStore : Option FileContent → Except SnapshotError Store
  | none => .ok .empty
  | some (.bytes bytes) => do (← Snapshot.ofBytes bytes).toStore
  | some _ => .error .unreadable

/-! ### Running a script -/

/-- A publisher whose store refuses some of the commands. -/
structure Feed where
  publisher : Publisher
  refreshes : Nat := 0
  rejected : Nat := 0

namespace Feed

def step (feed : Feed) : ScriptStep → Feed
  | .command command =>
    match feed.publisher.execute command with
    | .ok _ publisher => { feed with publisher }
    | .error _ publisher => { feed with publisher, rejected := feed.rejected + 1 }
  | .refresh => { feed with refreshes := feed.refreshes + 1 }

/-- Carries out a script. One receiver has been there from the start. -/
def run (store : Store) (script : CommandScript) : Feed :=
  let publisher := ({ store } : Publisher).subscribe
  let feed := script.steps.foldl step { publisher }
  { feed with publisher := feed.publisher.close }

/-- What the receiver was sent, and the refreshes. -/
def events (feed : Feed) : List SessionEvent :=
  let logged := ((feed.publisher.receivers.mailbox? 0).map (·.pending)).getD []
  logged.map .command ++ List.replicate feed.refreshes .refresh

end Feed

/-- The session that follows a feed on a replica of the store that the feed started from. Everything
has been sent before the session looks, so there is one batch. -/
def follow (config : Config) (replica : Store) (feed : Feed) : Session :=
  (Session.start replica { config }).run [feed.events]

/-- The replica has refused nothing and has the same snapshot as the store. -/
def checkReplica (source : Snapshot) (session : Session) : Except ApplicationError Unit :=
  let replica := session.store.snapshot
  if session.rejected = 0 ∧ source.encode = replica.encode then .ok ()
  else .error (.replicaDivergence source.entries.length replica.entries.length)

/-- What a run prints: the summary and, if asked for, the import map. -/
def render (input : RunInput) (status : BuildStatus) (rejected : Nat) : String :=
  let map :=
    if input.printImportMap then
      match status.report? with
      | some report => report.importMap.json ++ "\n"
      | none => ""
    else ""
  status.render input.colour rejected ++ map

/-- Runs a script that has been read on a store that has been read. -/
def runScript (input : RunInput) (config : Config) (script : CommandScript) (store : Store) :
    Except ApplicationError Outcome := do
  let feed := Feed.run store script
  let session := follow config store feed
  let snapshot := feed.publisher.store.snapshot
  checkReplica snapshot session
  let status := session.preview.status
  .ok { status, snapshot, rejected := feed.rejected, output := render input status feed.rejected }

/-- One run. Configuration, script and snapshot are read in this order, and the first that is at
fault is the error. -/
def run (input : RunInput) : Except ApplicationError Outcome := do
  let config ← (readConfig input.config).mapError .config
  let script ← (readScript input.script).mapError .script
  let store ← (readStore input.snapshot).mapError .snapshot
  runScript input config script store

end Application

end LivePreview
