import LivePreview.Command.Log
import LivePreview.Proofs.Broadcast
import LivePreview.Proofs.Command.Replay
import LivePreview.Proofs.Store.Failure

/-!
# Agreement of the replicas

A publisher with any number of receivers, in any order of events. What a receiver has taken and what
waits in its mailbox is the log from the start on, up to the end or up to where its delivery was
closed. Replaying that gives the tree that the publisher had then.
-/
namespace LivePreview

/-- What can happen to a publisher. -/
inductive PublisherEvent where
  | execute (command : Command)
  | subscribe
  | unsubscribe (receiver : Nat)
  | receive (receiver : Nat)
  | drain (receiver : Nat)
  | close
deriving Repr

/-- The publisher after a command, whether it succeeds or fails. -/
def Publisher.attempt (publisher : Publisher) (command : Command) : Publisher :=
  match publisher.execute command with
  | .ok _ left => left
  | .error _ left => left

theorem Publisher.attempt_of_ok {publisher : Publisher} {command : Command} {store : Store}
    (h : command.apply publisher.store = .ok () store) :
    publisher.attempt command =
      { store
        log := publisher.log.append command
        receivers := publisher.receivers.publish (publisher.log.next command) } := by
  rw [attempt, execute, h]

theorem Publisher.attempt_of_error {publisher : Publisher} {command : Command} {cause : StoreError}
    (h : command.apply publisher.store = .error cause publisher.store) :
    publisher.attempt command = publisher := by
  rw [attempt, execute, h]

/-- A publisher, with what each receiver has taken so far and the size that the log had when its
delivery was closed. -/
structure Recording where
  publisher : Publisher
  taken : Nat → List LoggedCommand := fun _ => []
  closedAt : Nat → Option Nat := fun _ => none

namespace Recording

def pending (recording : Recording) (receiver : Nat) : List LoggedCommand :=
  ((recording.publisher.receivers.mailbox? receiver).map (·.pending)).getD []

/-- The receiver takes the first `count` items that wait for it. -/
def take (recording : Recording) (receiver count : Nat) : Nat → List LoggedCommand := fun other =>
  if other = receiver then
    recording.taken receiver ++ (recording.pending receiver).take count
  else recording.taken other

def step (recording : Recording) : PublisherEvent → Recording
  | .execute command => { recording with publisher := recording.publisher.attempt command }
  | .subscribe => { recording with publisher := recording.publisher.subscribe }
  | .unsubscribe receiver =>
    { recording with publisher := recording.publisher.unsubscribe receiver }
  | .receive receiver =>
    { recording with
      publisher := recording.publisher.receive receiver
      taken := recording.take receiver 1 }
  | .drain receiver =>
    { recording with
      publisher := recording.publisher.drain receiver
      taken := recording.take receiver (recording.pending receiver).length }
  | .close =>
    { recording with
      publisher := recording.publisher.close
      closedAt := fun receiver =>
        (recording.closedAt receiver).or
          (if receiver < recording.publisher.receivers.next then some recording.publisher.log.size
           else none) }

def start (store : Store) : Recording := { publisher := { store } }

def run (store : Store) (events : List PublisherEvent) : Recording :=
  events.foldl step (start store)

/-- How many commands are meant for the receiver so far. -/
def due (recording : Recording) (receiver : Nat) : Nat :=
  (recording.closedAt receiver).getD recording.publisher.log.size

end Recording

/-! ### One receiver -/

/-- What was taken and what waits are the entries from the start on, all of them or as many as there
were when the delivery was closed. -/
structure Delivered (entries taken : List LoggedCommand) (closed : Option Nat)
    (mailbox : Mailbox LoggedCommand) : Prop where
  received : taken ++ mailbox.pending = entries.take (closed.getD entries.length)
  attached : mailbox.attached = closed.isNone
  closed_le : closed.getD entries.length ≤ entries.length

namespace Delivered

variable {entries taken : List LoggedCommand} {closed : Option Nat}
  {mailbox : Mailbox LoggedCommand}

/-- Whoever subscribes late finds everything logged so far. -/
theorem subscribe (entries : List LoggedCommand) :
    Delivered entries [] none { pending := entries } where
  received := List.take_length.symm
  attached := rfl
  closed_le := Nat.le_refl _

theorem publish (h : Delivered entries taken closed mailbox) (logged : LoggedCommand) :
    Delivered (entries ++ [logged]) taken closed
      (if mailbox.attached then { mailbox with pending := mailbox.pending ++ [logged] }
       else mailbox) := by
  obtain ⟨hreceived, hattached, hle⟩ := h
  cases closed with
  | none =>
    rw [Option.getD_none, List.take_length] at hreceived
    have ha : mailbox.attached = true := hattached
    rw [if_pos ha]
    refine ⟨?_, hattached, Nat.le_refl _⟩
    rw [Option.getD_none, List.take_length, ← List.append_assoc, hreceived]
  | some size =>
    have ha : ¬ mailbox.attached = true := by rw [hattached]; exact Bool.false_ne_true
    rw [if_neg ha]
    rw [Option.getD_some] at hreceived hle
    refine ⟨?_, hattached, ?_⟩
    · rw [Option.getD_some, List.take_append_of_le_length hle]
      exact hreceived
    · rw [Option.getD_some, List.length_append]
      omega

theorem take (h : Delivered entries taken closed mailbox) (count : Nat) :
    Delivered entries (taken ++ mailbox.pending.take count) closed
      { mailbox with pending := mailbox.pending.drop count } where
  received := by rw [List.append_assoc, List.take_append_drop, h.received]
  attached := h.attached
  closed_le := h.closed_le

/-- What was closed before stays closed where it was. -/
theorem close (h : Delivered entries taken closed mailbox) :
    Delivered entries taken (closed.or (some entries.length))
      { mailbox with attached := false } := by
  cases closed with
  | none => exact ⟨h.received, rfl, Nat.le_refl _⟩
  | some size => exact ⟨h.received, rfl, h.closed_le⟩

end Delivered

/-! ### All of them -/

namespace Recording

structure Invariant (initial : Store) (recording : Recording) : Prop where
  numbered : recording.publisher.log.entries.map (·.sequence) =
    List.range recording.publisher.log.size
  runsTo : initial.RunsTo (recording.publisher.log.entries.map (·.command))
    recording.publisher.store.root
  delivered : ∀ receiver mailbox,
    recording.publisher.receivers.mailbox? receiver = some mailbox →
      Delivered recording.publisher.log.entries (recording.taken receiver)
        (recording.closedAt receiver) mailbox
  fresh : ∀ receiver, recording.publisher.receivers.next ≤ receiver →
    recording.taken receiver = [] ∧ recording.closedAt receiver = none

theorem invariant_start (initial : Store) : Invariant initial (start initial) where
  numbered := rfl
  runsTo := .nil initial
  delivered := fun _ _ h => nomatch h
  fresh := fun _ _ => ⟨rfl, rfl⟩

namespace Invariant

variable {initial : Store} {recording : Recording}

theorem attempt (h : Invariant initial recording) (command : Command) :
    Invariant initial { recording with publisher := recording.publisher.attempt command } := by
  rcases command.apply_cases recording.publisher.store with ⟨store, hs, -⟩ | ⟨cause, hs⟩
  · rw [Publisher.attempt_of_ok hs]
    constructor
    · change (recording.publisher.log.append command).entries.map (·.sequence) =
        List.range (recording.publisher.log.append command).size
      rw [CommandLog.append, CommandLog.size, List.map_append, h.numbered, List.length_append,
        List.length_singleton, List.range_succ]
      rfl
    · change initial.RunsTo ((recording.publisher.log.append command).entries.map (·.command)) _
      rw [CommandLog.append, List.map_append]
      exact h.runsTo.concat hs
    · intro receiver mailbox hm
      obtain ⟨old, hold, rfl⟩ :=
        Option.map_eq_some_iff.mp ((Broadcast.mailbox?_publish _ _ receiver).symm.trans hm)
      exact (h.delivered receiver old hold).publish _
    · intro receiver hr
      exact h.fresh receiver ((Broadcast.next_publish _ _) ▸ hr)
  · rw [Publisher.attempt_of_error hs]
    exact h

theorem subscribe (h : Invariant initial recording) :
    Invariant initial { recording with publisher := recording.publisher.subscribe } where
  numbered := h.numbered
  runsTo := h.runsTo
  delivered := by
    intro receiver mailbox hm
    have hm := (Broadcast.mailbox?_subscribe _ _ receiver).symm.trans hm
    split at hm
    · rename_i hr
      obtain rfl := Option.some.inj hm
      obtain ⟨htaken, hclosed⟩ := h.fresh receiver (Nat.le_of_eq hr.symm)
      change Delivered _ (recording.taken receiver) (recording.closedAt receiver) _
      rw [htaken, hclosed]
      exact .subscribe _
    · exact h.delivered receiver mailbox hm
  fresh := by
    intro receiver hr
    have hr := (Broadcast.next_subscribe _ _) ▸ hr
    exact h.fresh receiver (Nat.le_of_succ_le hr)

theorem unsubscribe (h : Invariant initial recording) (dropped : Nat) :
    Invariant initial { recording with publisher := recording.publisher.unsubscribe dropped } where
  numbered := h.numbered
  runsTo := h.runsTo
  delivered := by
    intro receiver mailbox hm
    have hm := (Broadcast.mailbox?_unsubscribe _ _ receiver).symm.trans hm
    split at hm
    · cases hm
    · exact h.delivered receiver mailbox hm
  fresh := fun receiver hr => h.fresh receiver ((Broadcast.next_unsubscribe _ _) ▸ hr)

theorem pending_eq {receiver : Nat} {mailbox : Mailbox LoggedCommand}
    (hm : recording.publisher.receivers.mailbox? receiver = some mailbox) :
    recording.pending receiver = mailbox.pending := by
  rw [pending, hm]
  rfl

/-- A receiver that takes from its mailbox, whatever operation does that. -/
theorem take (h : Invariant initial recording) {receivers : Broadcast LoggedCommand}
    {taker count : Nat} (hnext : receivers.next = recording.publisher.receivers.next)
    (hother : ∀ receiver, receiver ≠ taker →
      receivers.mailbox? receiver = recording.publisher.receivers.mailbox? receiver)
    (htaker : receivers.mailbox? taker = (recording.publisher.receivers.mailbox? taker).map
      fun mailbox => { mailbox with pending := mailbox.pending.drop count }) :
    Invariant initial { recording with
      publisher := { recording.publisher with receivers }
      taken := recording.take taker count } where
  numbered := h.numbered
  runsTo := h.runsTo
  delivered := by
    intro receiver mailbox hm
    change receivers.mailbox? receiver = some mailbox at hm
    change Delivered _ (recording.take taker count receiver) (recording.closedAt receiver) _
    rw [Recording.take]
    by_cases hr : receiver = taker
    · subst hr
      rw [htaker] at hm
      obtain ⟨old, hold, rfl⟩ := Option.map_eq_some_iff.mp hm
      rw [if_pos rfl, pending_eq hold]
      exact (h.delivered receiver old hold).take count
    · rw [if_neg hr]
      exact h.delivered receiver mailbox ((hother receiver hr) ▸ hm)
  fresh := by
    intro receiver hr
    change receivers.next ≤ receiver at hr
    rw [hnext] at hr
    obtain ⟨htaken, hclosed⟩ := h.fresh receiver hr
    refine ⟨?_, hclosed⟩
    change recording.take taker count receiver = []
    rw [Recording.take]
    split
    · rename_i he
      subst he
      have hnone : recording.publisher.receivers.mailbox? receiver = none := by
        cases hm : recording.publisher.receivers.mailbox? receiver with
        | none => rfl
        | some mailbox => exact absurd (Broadcast.lt_next_of_mailbox? hm) (Nat.not_lt.mpr hr)
      rw [htaken, pending, hnone]
      exact List.take_nil
    · exact htaken

theorem receive (h : Invariant initial recording) (receiver : Nat) :
    Invariant initial (recording.step (.receive receiver)) := by
  refine h.take (Broadcast.next_receive _ _) (fun other hne => ?_) ?_
  · rw [Broadcast.receive, Broadcast.mailbox?_modify, if_neg hne]
  · rw [Broadcast.receive, Broadcast.mailbox?_modify, if_pos rfl]
    simp only [List.drop_one]

theorem drain (h : Invariant initial recording) (receiver : Nat) :
    Invariant initial (recording.step (.drain receiver)) := by
  refine h.take (Broadcast.next_drain _ _) (fun other hne => ?_) ?_
  · rw [Broadcast.drain, Broadcast.mailbox?_modify, if_neg hne]
  · rw [Broadcast.drain, Broadcast.mailbox?_modify, if_pos rfl]
    cases hm : recording.publisher.receivers.mailbox? receiver with
    | none => rfl
    | some mailbox => simp [pending_eq hm]

theorem close (h : Invariant initial recording) :
    Invariant initial (recording.step .close) where
  numbered := h.numbered
  runsTo := h.runsTo
  delivered := by
    intro receiver mailbox hm
    obtain ⟨old, hold, rfl⟩ :=
      Option.map_eq_some_iff.mp ((Broadcast.mailbox?_close _ receiver).symm.trans hm)
    have hlt := Broadcast.lt_next_of_mailbox? hold
    have hclose := (h.delivered receiver old hold).close
    rw [Recording.step]
    dsimp only
    rw [if_pos hlt]
    exact hclose
  fresh := by
    intro receiver hr
    have hr := (Broadcast.next_close recording.publisher.receivers) ▸ hr
    obtain ⟨htaken, hclosed⟩ := h.fresh receiver hr
    refine ⟨htaken, ?_⟩
    rw [Recording.step]
    dsimp only
    rw [hclosed, if_neg (Nat.not_lt.mpr hr)]
    rfl

/-- No event breaks the agreement. -/
theorem step (h : Invariant initial recording) (event : PublisherEvent) :
    Invariant initial (recording.step event) := by
  cases event with
  | execute command => exact h.attempt command
  | subscribe => exact h.subscribe
  | unsubscribe receiver => exact h.unsubscribe receiver
  | receive receiver => exact h.receive receiver
  | drain receiver => exact h.drain receiver
  | close => exact h.close

end Invariant

theorem invariant_run (initial : Store) (events : List PublisherEvent) :
    Invariant initial (run initial events) := by
  have h : ∀ recording, Invariant initial recording →
      Invariant initial (events.foldl Recording.step recording) := by
    induction events with
    | nil => exact fun _ h => h
    | cons event rest ih => exact fun recording h => ih _ (h.step event)
  exact h _ (invariant_start initial)

/-! ### Earlier moments -/

/-- An event logs at most one command. -/
theorem entries_step (recording : Recording) (event : PublisherEvent) :
    ∃ logged, (recording.step event).publisher.log.entries =
      recording.publisher.log.entries ++ logged ∧ logged.length ≤ 1 := by
  cases event with
  | execute command =>
    rw [Recording.step]
    rcases command.apply_cases recording.publisher.store with ⟨store, hs, -⟩ | ⟨cause, hs⟩
    · rw [Publisher.attempt_of_ok hs]
      exact ⟨[recording.publisher.log.next command], rfl, Nat.le_refl _⟩
    · rw [Publisher.attempt_of_error hs]
      exact ⟨[], (List.append_nil _).symm, Nat.zero_le _⟩
  | subscribe => exact ⟨[], (List.append_nil _).symm, Nat.zero_le _⟩
  | unsubscribe receiver => exact ⟨[], (List.append_nil _).symm, Nat.zero_le _⟩
  | receive receiver => exact ⟨[], (List.append_nil _).symm, Nat.zero_le _⟩
  | drain receiver => exact ⟨[], (List.append_nil _).symm, Nat.zero_le _⟩
  | close => exact ⟨[], (List.append_nil _).symm, Nat.zero_le _⟩

/-- What was logged stays in the log. -/
theorem entries_prefix_run (initial : Store) (events : List PublisherEvent) (moment : Nat) :
    (run initial (events.take moment)).publisher.log.entries <+:
      (run initial events).publisher.log.entries := by
  have h : ∀ (events : List PublisherEvent) (recording : Recording),
      recording.publisher.log.entries <+:
        (events.foldl Recording.step recording).publisher.log.entries := by
    intro events
    induction events with
    | nil => exact fun _ => List.prefix_rfl
    | cons event rest ih =>
      intro recording
      obtain ⟨logged, he, _⟩ := entries_step recording event
      exact (he ▸ List.prefix_append _ _).trans (ih (recording.step event))
  have hrun : run initial events =
      (events.drop moment).foldl Recording.step (run initial (events.take moment)) := by
    rw [run, run, ← List.foldl_append, List.take_append_drop]
  rw [hrun]
  exact h _ _

/-- The log passes through every size on its way. -/
theorem exists_moment (initial : Store) (events : List PublisherEvent) {size : Nat}
    (h : size ≤ (run initial events).publisher.log.size) :
    ∃ moment, (run initial (events.take moment)).publisher.log.size = size := by
  have hgeneral : ∀ (events : List PublisherEvent) (recording : Recording),
      recording.publisher.log.size ≤ size →
      size ≤ (events.foldl Recording.step recording).publisher.log.size →
      ∃ moment,
        ((events.take moment).foldl Recording.step recording).publisher.log.size = size := by
    intro events
    induction events with
    | nil => exact fun recording hge hle => ⟨0, Nat.le_antisymm hge hle⟩
    | cons event rest ih =>
      intro recording hge hle
      by_cases he : recording.publisher.log.size = size
      · exact ⟨0, he⟩
      · obtain ⟨logged, hlog, hone⟩ := entries_step recording event
        have hsize : (recording.step event).publisher.log.size ≤ size := by
          rw [CommandLog.size, hlog, List.length_append]
          rw [CommandLog.size] at hge he
          omega
        obtain ⟨moment, hmoment⟩ := ih _ hsize hle
        exact ⟨moment + 1, hmoment⟩
  exact hgeneral events (start initial) (Nat.zero_le _) h

/-- A store with the initial tree that replays what a receiver was sent follows the publisher. -/
theorem runsTo_moment (initial : Store) (events : List PublisherEvent) (moment : Nat) :
    initial.RunsTo
      (((run initial events).publisher.log.entries.take
        (run initial (events.take moment)).publisher.log.size).map (·.command))
      (run initial (events.take moment)).publisher.store.root := by
  have hprefix := entries_prefix_run initial events moment
  rw [CommandLog.size, ← List.prefix_iff_eq_take.mp hprefix]
  exact (invariant_run initial (events.take moment)).runsTo

/-- At every moment, what a receiver has taken and what waits for it are the log entries from 0 on,
up to the end or to the close. On a store with the initial tree they never fail and give the tree
that the publisher had at that size of the log. A log that began with the empty store rebuilds
it. -/
theorem replicas_agree (initial : Store) (events : List PublisherEvent) :
    (∀ receiver mailbox,
      (run initial events).publisher.receivers.mailbox? receiver = some mailbox →
        let sent := (run initial events).taken receiver ++ mailbox.pending
        let size := (run initial events).due receiver
        size ≤ (run initial events).publisher.log.size ∧
        sent = (run initial events).publisher.log.entries.take size ∧
        sent.map (·.sequence) = List.range size ∧
        (∃ moment, (run initial (events.take moment)).publisher.log.size = size) ∧
        ∀ moment, (run initial (events.take moment)).publisher.log.size = size →
          ∀ replica : Store, replica.sameTree initial = true →
            ∃ replayed, replica.replay (sent.map (·.command)) = (replayed, none) ∧
              replayed.sameTree (run initial (events.take moment)).publisher.store = true) ∧
      (initial.sameTree .empty = true →
        ∃ rebuilt, (run initial events).publisher.log.rebuild = (rebuilt, none) ∧
          rebuilt.sameTree (run initial events).publisher.store = true) := by
  have hi := invariant_run initial events
  constructor
  · intro receiver mailbox hm
    dsimp only
    obtain ⟨hsent, _, hle⟩ := hi.delivered receiver mailbox hm
    refine ⟨hle, hsent, ?_, exists_moment initial events hle, ?_⟩
    · rw [hsent, List.map_take, hi.numbered, List.take_range]
      exact congrArg List.range (Nat.min_eq_left hle)
    · intro moment hmoment replica hreplica
      have hruns := runsTo_moment initial events moment
      rw [hmoment] at hruns
      obtain ⟨replayed, hreplay, hroot⟩ :=
        hruns.of_root_eq (Store.sameTree_iff.mp hreplica).symm
      rw [hsent]
      exact ⟨replayed, hreplay, Store.sameTree_iff.mpr hroot⟩
  · intro hempty
    obtain ⟨rebuilt, hreplay, hroot⟩ := hi.runsTo.of_root_eq (Store.sameTree_iff.mp hempty)
    exact ⟨rebuilt, hreplay, Store.sameTree_iff.mpr hroot⟩

theorem replicas_agree_after_close :
    let events : List PublisherEvent :=
      [.execute (.createFile "/a" "x"), .subscribe, .receive 0, .execute (.deleteFile "/b"),
        .execute (.rename "/a" "/b/c"), .close, .execute (.createDirectory "/d")]
    ((run .empty events).taken 0 ++ (run .empty events).pending 0).map (·.sequence) = [0, 1] ∧
      ∃ rebuilt, (run .empty events).publisher.log.rebuild = (rebuilt, none) ∧
        rebuilt.sameTree (run .empty events).publisher.store = true := by
  intro events
  have hagree := replicas_agree .empty events
  obtain ⟨_, _, hsequence, _⟩ := hagree.1 0 _ rfl
  exact ⟨hsequence, hagree.2 (by decide +kernel)⟩

end Recording

end LivePreview
