import LivePreview.Command.Log
import LivePreview.Preview

/-!
# Sessions

A session keeps a replica of a store and the preview that is built from it. It handles events in
batches, with at most one build for each.
-/
namespace LivePreview

inductive SessionEvent where
  | command (logged : LoggedCommand)
  | refresh
deriving DecidableEq, Repr

structure Session where
  store : Store
  preview : Preview
  /-- The number of commands that the store refused. -/
  rejected : Nat := 0
deriving Repr

namespace Session

/-- A session on a store, which the preview watches from now on. -/
def start (store : Store) (preview : Preview) : Session :=
  let (preview, store) := preview.watch store
  { store, preview }

def handle (session : Session) : SessionEvent → Session
  | .command logged =>
    match logged.command.apply session.store with
    | .ok () store => { session with store }
    | .error _ store => { session with store, rejected := session.rejected + 1 }
  | .refresh => { session with preview := session.preview.requestRefresh }

def rebuild (session : Session) : Session :=
  let (preview, store, _) := session.preview.rebuildIfPending session.store
  { session with preview, store }

/-- Handles a batch, and builds once if it brought anything that asks for it. -/
def handleBatch (session : Session) (batch : List SessionEvent) : Session :=
  if batch.isEmpty then session else (batch.foldl handle session).rebuild

/-- Handles batches one after the other, and whatever is pending in the end. -/
def run (session : Session) (batches : List (List SessionEvent)) : Session :=
  (batches.foldl handleBatch session).rebuild

end Session

end LivePreview
