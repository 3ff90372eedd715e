import LivePreview.Application
import LivePreview.Proofs.Session
import LivePreview.Proofs.Snapshot

/-!
# Runs of the application

The replica follows the store by the log of the commands that succeeded, so it never diverges. A run
ends with the tree that the script leads to when the commands that fail are passed over, and shows
the status that a new preview comes to on that tree.
-/
namespace LivePreview

namespace Application

namespace Feed

/-- A feed that has attempted some commands on the initial store: it counts those that failed, the
others are in the log and in the mailbox of its receiver, and they run through on the initial
store. -/
structure Records (initial : Store) (commands : List Command) (feed : Feed) : Prop where
  store_eq : feed.publisher.store = initial.edit commands
  rejected_eq : feed.rejected = initial.refusals commands
  mailbox : feed.publisher.receivers.mailbox? 0 = some { pending := feed.publisher.log.entries }
  runsTo : initial.RunsTo (feed.publisher.log.entries.map (·.command)) feed.publisher.store.root

theorem records_start (initial : Store) :
    Records initial [] { publisher := ({ store := initial } : Publisher).subscribe } where
  store_eq := rfl
  rejected_eq := rfl
  mailbox := rfl
  runsTo := .nil initial

variable {initial : Store} {commands : List Command} {feed : Feed}

theorem Records.attempt (h : feed.Records initial commands) (command : Command) :
    (feed.step (.command command)).Records initial (commands ++ [command]) := by
  have hedit : initial.edit (commands ++ [command]) = feed.publisher.store.attempt command := by
    rw [Store.edit_append, ← h.store_eq, Store.edit_singleton]
  have hrefusals : initial.refusals (commands ++ [command]) =
      feed.rejected + feed.publisher.store.refusals [command] := by
    rw [Store.refusals_append, ← h.store_eq, h.rejected_eq]
  rw [Feed.step, Publisher.execute]
  rcases command.apply_cases feed.publisher.store with ⟨next, ha, -⟩ | ⟨cause, ha⟩
  · rw [Store.attempt_of_ok ha] at hedit
    rw [Store.refusals_of_ok ha] at hrefusals
    rw [ha]
    refine ⟨hedit.symm, hrefusals.symm, ?_, ?_⟩
    · refine (Broadcast.mailbox?_publish _ _ 0).trans ?_
      rw [h.mailbox]
      rfl
    · change initial.RunsTo ((feed.publisher.log.append command).entries.map (·.command)) _
      rw [CommandLog.append, List.map_append]
      exact h.runsTo.concat ha
  · rw [Store.attempt_of_error ha] at hedit
    rw [Store.refusals_of_error ha] at hrefusals
    rw [ha]
    exact ⟨hedit.symm, hrefusals.symm, h.mailbox, h.runsTo⟩

theorem Records.foldl_step (h : feed.Records initial commands) (steps : List ScriptStep) :
    (steps.foldl step feed).Records initial (commands ++ CommandScript.commands ⟨steps⟩) := by
  induction steps generalizing commands feed with
  | nil => rwa [CommandScript.commands, List.filterMap_nil, List.append_nil]
  | cons step rest ih =>
    cases step with
    | refresh => exact ih ⟨h.store_eq, h.rejected_eq, h.mailbox, h.runsTo⟩
    | command command =>
      have hrest := ih (h.attempt command)
      rwa [List.append_assoc] at hrest

theorem commands_events (feed : Feed) :
    SessionEvent.commands feed.events =
      (((feed.publisher.receivers.mailbox? 0).map (·.pending)).getD []).map (·.command) := by
  rw [events, SessionEvent.commands_append, SessionEvent.commands, SessionEvent.commands,
    List.filterMap_map, List.filterMap_replicate]
  exact (List.append_nil _).trans (List.filterMap_eq_map (f := LoggedCommand.command) ▸ rfl)

/-- After a script the store is where its commands lead, and the receiver was sent those that
succeeded. They run through on a store with the initial tree. -/
theorem run_spec (store : Store) (script : CommandScript) :
    let feed := Feed.run store script
    feed.publisher.store = store.edit script.commands ∧
      feed.rejected = store.refusals script.commands ∧
      store.RunsTo (SessionEvent.commands feed.events) (store.edit script.commands).root := by
  intro feed
  have h := (records_start store).foldl_step script.steps
  have hmailbox := (Broadcast.mailbox?_close _ 0).trans (congrArg (Option.map _) h.mailbox)
  have hruns := h.runsTo
  rw [h.store_eq] at hruns
  refine ⟨h.store_eq, h.rejected_eq, ?_⟩
  rw [commands_events, show feed.publisher.receivers.mailbox? 0 = _ from hmailbox]
  exact hruns

end Feed

/-- The session of a feed has the tree of the store, and no matter when it meets the refreshes, it
shows the status that a new preview comes to on that tree. -/
theorem follow_spec (config : Config) (store : Store) (script : CommandScript)
    (events : List SessionEvent)
    (he : SessionEvent.commands events = SessionEvent.commands (Feed.run store script).events) :
    let session := (Session.start store { config }).run [events]
    let final := store.edit script.commands
    session.store.root = final.root ∧ session.rejected = 0 ∧
      session.preview.status = (Preview.build { config } final).status := by
  intro session final
  obtain ⟨hroot, hrejected⟩ := (Feed.run_spec store script).2.2.edit
  obtain ⟨hstore, hrefused, hstatus⟩ := Session.run_once { config } store events
  rw [he] at hstore hrefused hstatus
  refine ⟨hstore.trans hroot, hrefused.trans hrejected, hstatus.trans ?_⟩
  rw [Preview.build_of_root_eq hroot]

theorem checkReplica_eq_ok {source : Store} {session : Session} (hr : session.rejected = 0)
    (hroot : session.store.root = source.root) : checkReplica source.snapshot session = .ok () := by
  rw [checkReplica, Store.snapshot_of_root_eq hroot]
  exact if_pos ⟨hr, rfl⟩

/-- A run whose input can be read never finds the replica different from the store. Its snapshot is
that of the tree to which the commands of the script lead when those that fail are passed over,
these are counted, and its status is what a new preview comes to in its first build over that tree.
It does not matter where the refreshes of the script stand, or how the session meets them between
the commands. -/
theorem run_eq_ok {input : RunInput} {config : Config} {script : CommandScript} {store : Store}
    (hc : readConfig input.config = .ok config) (hs : readScript input.script = .ok script)
    (hi : readStore input.snapshot = .ok store) :
    let final := store.edit script.commands
    ∃ outcome, run input = .ok outcome ∧ outcome.snapshot = final.snapshot ∧
      outcome.rejected = store.refusals script.commands ∧
      outcome.status = (Preview.build { config } final).status ∧
      ∀ events,
        SessionEvent.commands events = SessionEvent.commands (Feed.run store script).events →
          let session := (Session.start store { config }).run [events]
          checkReplica outcome.snapshot session = .ok () ∧
            session.preview.status = outcome.status := by
  intro final
  let feed := Feed.run store script
  let session := follow config store feed
  let outcome : Outcome :=
    { status := session.preview.status
      snapshot := feed.publisher.store.snapshot
      rejected := feed.rejected
      output := render input session.preview.status feed.rejected }
  obtain ⟨hstore, hrejected, _⟩ := Feed.run_spec store script
  have hfollow := follow_spec config store script
  have hagrees : ∀ session : Session, session.store.root = final.root → session.rejected = 0 →
      checkReplica outcome.snapshot session = .ok () := by
    intro session hroot hrefused
    rw [show outcome.snapshot = final.snapshot from congrArg Store.snapshot hstore]
    exact checkReplica_eq_ok hrefused hroot
  obtain ⟨hroot, hrefused, hstatus⟩ := hfollow feed.events rfl
  have hrun : runScript input config script store = .ok outcome := by
    rw [runScript]
    dsimp only
    rw [show checkReplica feed.publisher.store.snapshot session = .ok () from
      hagrees session hroot hrefused]
    rfl
  refine ⟨outcome, ?_, congrArg Store.snapshot hstore, hrejected, hstatus, fun events he => ?_⟩
  · rw [run, hc, hs, hi]
    exact hrun
  · obtain ⟨hroot', hrefused', hstatus'⟩ := hfollow events he
    exact ⟨hagrees _ hroot' hrefused', hstatus'.trans hstatus.symm⟩

/-- A script with a refresh before its commands, the last of which fails. -/
theorem run_of_refused_deletion :
    let text := "commands: [{op: refresh}, {op: create, path: /App.jsx, content: run()}, " ++
      "{op: delete, path: /b.js}]\n"
    let script : CommandScript :=
      ⟨[.refresh, .command (.createFile "/App.jsx" "run()"), .command (.deleteFile "/b.js")]⟩
    let input : RunInput :=
      { config := ⟨"preview.yaml", .absent⟩
        script := ⟨"session.yaml", .bytes (Fingerprint.utf8 text)⟩ }
    readConfig input.config = .ok {} ∧ readScript input.script = .ok script ∧
      readStore input.snapshot = .ok .empty ∧
      ∃ outcome, run input = .ok outcome ∧ outcome.rejected = 1 ∧
        outcome.snapshot.entries.map (·.1) = ["/", "/App.jsx"] ∧
        outcome.status =
          (Preview.build { config := {} } (Store.empty.edit script.commands)).status := by
  intro text script input
  have hs : readScript input.script = .ok script := by decide +kernel
  obtain ⟨outcome, hrun, hsnapshot, hrejected, hstatus, _⟩ := run_eq_ok rfl hs rfl
  refine ⟨rfl, hs, rfl, outcome, hrun, ?_, ?_, hstatus⟩
  · rw [hrejected]
    decide +kernel
  · rw [hsnapshot]
    decide +kernel

end Application

end LivePreview
