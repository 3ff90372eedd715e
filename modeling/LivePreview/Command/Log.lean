import LivePreview.Command

/-!
# Command logs and publishers

A log numbers the commands that succeeded, from zero on. A publisher owns a store, logs what
succeeds on it and broadcasts the log to its receivers; one that subscribes late is first given
everything logged so far.
-/
namespace LivePreview

/-- A command and its place in the log. -/
structure LoggedCommand where
  sequence : Nat
  command : Command
deriving DecidableEq, Repr

structure CommandLog where
  entries : List LoggedCommand := []
deriving DecidableEq, Repr

namespace CommandLog

def size (log : CommandLog) : Nat := log.entries.length

def isEmpty (log : CommandLog) : Bool := log.entries.isEmpty

/-- The entry that the command would become. -/
def next (log : CommandLog) (command : Command) : LoggedCommand := ⟨log.size, command⟩

def append (log : CommandLog) (command : Command) : CommandLog :=
  ⟨log.entries ++ [log.next command]⟩

/-- The entries from `sequence` on. -/
def since (log : CommandLog) (sequence : Nat) : List LoggedCommand := log.entries.drop sequence

/-- Replays the whole log on an empty store. -/
def rebuild (log : CommandLog) : Store × Option ReplayError :=
  Store.empty.replay (log.entries.map (·.command))

end CommandLog

structure Publisher where
  store : Store := .empty
  log : CommandLog := {}
  receivers : Broadcast LoggedCommand := {}
deriving Repr

namespace Publisher

def subscribe (publisher : Publisher) : Publisher :=
  { publisher with receivers := publisher.receivers.subscribe publisher.log.entries }

/-- A command that fails is neither logged nor delivered. -/
def execute (publisher : Publisher) (command : Command) :
    EStateM.Result StoreError Publisher LoggedCommand :=
  match command.apply publisher.store with
  | .error cause left => .error cause { publisher with store := left }
  | .ok () store =>
    let logged := publisher.log.next command
    .ok logged
      { store
        log := publisher.log.append command
        receivers := publisher.receivers.publish logged }

/-- Ends the delivery to every receiver. -/
def close (publisher : Publisher) : Publisher :=
  { publisher with receivers := publisher.receivers.close }

def unsubscribe (publisher : Publisher) (receiver : Nat) : Publisher :=
  { publisher with receivers := publisher.receivers.unsubscribe receiver }

def receive (publisher : Publisher) (receiver : Nat) : Publisher :=
  { publisher with receivers := publisher.receivers.receive receiver }

def drain (publisher : Publisher) (receiver : Nat) : Publisher :=
  { publisher with receivers := publisher.receivers.drain receiver }

end Publisher

end LivePreview
