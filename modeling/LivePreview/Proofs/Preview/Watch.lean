import LivePreview.Proofs.Command.Replay
import LivePreview.Proofs.Preview.Build
import LivePreview.Proofs.Store.Announcement

/-!
# Watched stores

A preview that watches a store, with commands on the store, requests and builds in any order. Every
command that changes the tree leaves a change in the mailbox of the preview, and a build alone takes
the request back. So as long as nothing asks for a build, the last one ran over the tree as it is.
-/
namespace LivePreview

/-- A command leaves the store as it is, or announces one change. -/
theorem Store.attempt_eq_or_announce (store : Store) (command : Command) :
    store.attempt command = store ∨
      ∃ root change, store.attempt command = ({ store with root } : Store).announce change := by
  rcases store.step_attempt_or_eq command with hs | he
  · rcases hs.announces with ⟨-, he⟩ | ⟨root, change, -, he⟩
    · exact .inl he
    · exact .inr ⟨root, change, he⟩
  · exact .inl he

namespace Preview

variable {config : Config} {preview : Preview} {store : Store}

/-! ### Calls that end -/

/-- What a status says between two calls. -/
structure Rests (preview : Preview) : Prop where
  not_building : preview.status ≠ .building
  of_idle : preview.status = .idle → preview.builds = 0 ∨ preview.pending = true

theorem Rests.trigger (h : preview.Rests) : preview.trigger.Rests where
  not_building := by
    change (if preview.status.isFailed then BuildStatus.idle else preview.status) ≠ .building
    split
    · exact BuildStatus.noConfusion
    · exact h.not_building
  of_idle := fun _ => .inr rfl

/-- A build comes to an end, one way or the other. -/
theorem rests_build (preview : Preview) (store : Store) : (preview.build store).Rests := by
  have ho := preview.outcome_build store
  generalize preview.build store = built at ho ⊢
  cases ho with
  | missing he => exact ⟨BuildStatus.noConfusion, fun h => nomatch h⟩
  | ready he hr hn => exact ⟨BuildStatus.noConfusion, fun h => nomatch h⟩
  | failed he report hr => exact ⟨BuildStatus.noConfusion, fun h => nomatch h⟩

theorem Reachable.rests (h : Reachable config preview) : preview.Rests := by
  induction h with
  | new => exact ⟨BuildStatus.noConfusion, fun _ => .inl rfl⟩
  | watched store _ ih => exact Rests.trigger ⟨ih.not_building, ih.of_idle⟩
  | refreshed _ ih => exact ih.trigger
  | @collected preview store _ ih =>
    rcases preview.collectChanges_eq store with he | he <;> rw [he]
    · exact ih
    · exact ih.trigger
  | built store _ _ => exact rests_build _ store

/-- Whatever it comes to, a build takes the request back and is counted, and the subscription
stays. -/
theorem build_effects (preview : Preview) (store : Store) :
    (preview.build store).pending = false ∧
      (preview.build store).subscription = preview.subscription ∧
      (preview.build store).builds = preview.builds + 1 := by
  have ho := preview.outcome_build store
  generalize preview.build store = built at ho ⊢
  cases ho <;> exact ⟨rfl, rfl, rfl⟩

theorem pending_build (preview : Preview) (store : Store) :
    (preview.build store).pending = false :=
  (preview.build_effects store).1

theorem subscription_build (preview : Preview) (store : Store) :
    (preview.build store).subscription = preview.subscription :=
  (preview.build_effects store).2.1

theorem builds_build (preview : Preview) (store : Store) :
    (preview.build store).builds = preview.builds + 1 :=
  (preview.build_effects store).2.2

/-- To be asked twice is to be asked once. -/
theorem trigger_trigger (preview : Preview) : preview.trigger.trigger = preview.trigger := by
  obtain ⟨_, _, _, _, status, _, _, _, _⟩ := preview
  cases status <;> rfl

/-- Steps that ask for a build at most do so together. -/
theorem asked_trans {a b c : Preview} (hb : b = a ∨ b = a.trigger) (hc : c = b ∨ c = b.trigger) :
    c = a ∨ c = a.trigger := by
  rcases hb with rfl | rfl
  · exact hc
  · rw [trigger_trigger, or_self] at hc
    exact .inr hc

/-! ### The mailbox -/

/-- The mailbox in which the changes of the watched store arrive. -/
def mailbox? (preview : Preview) (store : Store) : Option (Mailbox Change) :=
  preview.subscription.bind store.changes.mailbox?

theorem mailbox?_announce (preview : Preview) (store : Store) (change : Change) :
    preview.mailbox? (store.announce change) = (preview.mailbox? store).map fun mailbox =>
      if mailbox.attached then { mailbox with pending := mailbox.pending ++ [change] }
      else mailbox := by
  rw [mailbox?, mailbox?]
  cases preview.subscription with
  | none => rfl
  | some subscription => exact Broadcast.mailbox?_publish _ _ _

/-- What is announced waits in the mailbox. -/
theorem uncollected_announce {mailbox : Mailbox Change} (hm : preview.mailbox? store = some mailbox)
    (ha : mailbox.attached = true) (change : Change) :
    preview.uncollected (store.announce change) = mailbox.pending ++ [change] := by
  change ((preview.mailbox? (store.announce change)).map (·.pending)).getD [] = _
  rw [mailbox?_announce, hm, Option.map_some, if_pos ha]
  rfl

theorem mailbox?_watch (preview : Preview) (store : Store) :
    (preview.watch store).1.mailbox? (preview.watch store).2 = some { pending := [] } :=
  (Broadcast.mailbox?_subscribe store.changes [] store.changes.next).trans (if_pos rfl)

/-- Collecting the changes leaves the tree alone and the mailbox empty. -/
theorem mailbox?_collectChanges (preview : Preview) (store : Store) :
    (preview.collectChanges store).1.mailbox? (preview.collectChanges store).2 =
      (preview.mailbox? store).map fun mailbox => { mailbox with pending := [] } := by
  have hsubscription : (preview.collectChanges store).1.subscription = preview.subscription := by
    rcases preview.collectChanges_eq store with he | he <;> rw [he]
    rfl
  rw [mailbox?, mailbox?, hsubscription, collectChanges]
  cases preview.subscription with
  | none => rfl
  | some subscription =>
    exact (Broadcast.mailbox?_modify _ _ _ _).trans (if_pos rfl)

theorem root_collectChanges (preview : Preview) (store : Store) :
    (preview.collectChanges store).2.root = store.root := by
  rw [collectChanges]
  cases preview.subscription <;> rfl

/-- Where no change waits, there is nothing to collect. -/
theorem collectChanges_of_uncollected (h : preview.uncollected store = []) :
    preview.collectChanges store = (preview, store) := by
  rw [collectChanges, h]
  cases hs : preview.subscription with
  | none => rfl
  | some subscription =>
    have hdrain : store.changes.drain subscription = store.changes := by
      refine Broadcast.drain_eq_self fun mailbox hm => ?_
      rw [uncollected, hs, Option.bind_some, hm] at h
      exact h
    dsimp only
    rw [hdrain]
    rfl

theorem uncollected_collectChanges (preview : Preview) (store : Store) :
    (preview.collectChanges store).1.uncollected (preview.collectChanges store).2 = [] := by
  change (((preview.collectChanges store).1.mailbox? (preview.collectChanges store).2).map
    (·.pending)).getD [] = []
  rw [mailbox?_collectChanges]
  cases preview.mailbox? store <;> rfl

theorem pending_collectChanges (h : preview.uncollected store ≠ []) :
    (preview.collectChanges store).1.pending = true := by
  rw [collectChanges, List.isEmpty_eq_false_iff.mpr h]
  cases preview.subscription <;> rfl

/-! ### Following a store -/

/-- The preview is subscribed to the store. Unless it is asked to build, by a request or by a change
in the mailbox, the last build ran over the tree of the store and came to the status that is shown.
`last` are the tree and the status of that build. -/
structure Follows (preview : Preview) (store : Store) (last : Option (Node × BuildStatus)) :
    Prop where
  subscribed : ∃ mailbox, preview.mailbox? store = some mailbox ∧ mailbox.attached = true
  current : preview.pending = false → preview.uncollected store = [] →
    last = some (store.root, preview.status)

/-- The tree and the status of a build. -/
def buildRecord (preview : Preview) (store : Store) : Node × BuildStatus :=
  (store.root, (preview.build store).status)

theorem follows_watch (preview : Preview) (store : Store) (last : Option (Node × BuildStatus)) :
    (preview.watch store).1.Follows (preview.watch store).2 last where
  subscribed := ⟨_, mailbox?_watch preview store, rfl⟩
  current := fun h => nomatch h

namespace Follows

variable {last : Option (Node × BuildStatus)}

theorem uncollected_announce_ne_nil (h : preview.Follows store last) (root : Node)
    (change : Change) :
    preview.uncollected (({ store with root } : Store).announce change) ≠ [] := by
  obtain ⟨mailbox, hm, ha⟩ := h.subscribed
  have hm' : preview.mailbox? { store with root } = some mailbox := hm
  rw [uncollected_announce hm' ha]
  exact List.append_ne_nil_of_right_ne_nil _ (List.cons_ne_nil _ _)

/-- What is announced waits in the mailbox, so it does not matter what it did to the tree. -/
theorem announce (h : preview.Follows store last) (root : Node) (change : Change) :
    preview.Follows (({ store with root } : Store).announce change) last := by
  obtain ⟨mailbox, hm, ha⟩ := h.subscribed
  have hm' : preview.mailbox? { store with root } = some mailbox := hm
  refine ⟨⟨{ mailbox with pending := mailbox.pending ++ [change] }, ?_, ha⟩, fun _ hu => ?_⟩
  · rw [mailbox?_announce, hm', Option.map_some, if_pos ha]
  · exact absurd hu (h.uncollected_announce_ne_nil root change)

theorem attempt (h : preview.Follows store last) (command : Command) :
    preview.Follows (store.attempt command) last := by
  rcases store.attempt_eq_or_announce command with he | ⟨root, change, he⟩ <;> rw [he]
  · exact h
  · exact h.announce root change

theorem trigger (h : preview.Follows store last) : preview.trigger.Follows store last where
  subscribed := h.subscribed
  current := fun hp => nomatch hp

theorem build (h : preview.Follows store last) :
    (preview.build store).Follows store (some (preview.buildRecord store)) where
  subscribed := by
    rw [mailbox?, subscription_build]
    exact h.subscribed
  current := fun _ _ => rfl

theorem collectChanges (h : preview.Follows store last) :
    (preview.collectChanges store).1.Follows (preview.collectChanges store).2 last := by
  by_cases hu : preview.uncollected store = []
  · rw [collectChanges_of_uncollected hu]
    exact h
  · obtain ⟨mailbox, hm, ha⟩ := h.subscribed
    refine ⟨⟨{ mailbox with pending := [] }, ?_, ha⟩, fun hp _ => ?_⟩
    · rw [mailbox?_collectChanges, hm]
      rfl
    · rw [pending_collectChanges hu] at hp
      cases hp

end Follows

/-! ### Rebuilding -/

theorem rebuildIfPending_eq (preview : Preview) (store : Store) :
    preview.rebuildIfPending store =
      if (preview.collectChanges store).1.pending then
        ((preview.collectChanges store).1.build (preview.collectChanges store).2,
          (preview.collectChanges store).2, true)
      else ((preview.collectChanges store).1, (preview.collectChanges store).2, false) :=
  rfl

/-- Nothing asks for a build. -/
structure AtRest (preview : Preview) (store : Store) : Prop where
  pending : preview.pending = false
  uncollected : preview.uncollected store = []

theorem AtRest.rebuildIfPending (h : preview.AtRest store) :
    preview.rebuildIfPending store = (preview, store, false) := by
  rw [rebuildIfPending_eq, collectChanges_of_uncollected h.uncollected, h.pending]
  rfl

/-- What asks for a build is a request that is pending once the changes are collected. -/
theorem atRest_of_pending_collectChanges (h : (preview.collectChanges store).1.pending = false) :
    preview.AtRest store := by
  have hu : preview.uncollected store = [] := by
    by_contra hu
    rw [pending_collectChanges hu] at h
    cases h
  rw [collectChanges_of_uncollected hu] at h
  exact ⟨h, hu⟩

/-- If anything asks for a build, there is one. -/
theorem built_of_not_atRest (h : ¬ preview.AtRest store) :
    (preview.rebuildIfPending store).2.2 = true := by
  rw [rebuildIfPending_eq]
  split
  · rfl
  · rename_i hp
    exact absurd (atRest_of_pending_collectChanges (Bool.eq_false_iff.mpr hp)) h

theorem not_atRest_trigger : ¬ preview.trigger.AtRest store := fun h => nomatch h.pending

/-- Collecting a change asks for the build that the change asked for. -/
theorem not_atRest_collectChanges (h : ¬ preview.AtRest store) :
    ¬ (preview.collectChanges store).1.AtRest (preview.collectChanges store).2 := fun hr =>
  h (atRest_of_pending_collectChanges hr.pending)

/-- After a call that builds if anything asks for it, nothing does. -/
theorem atRest_rebuildIfPending (preview : Preview) (store : Store) :
    (preview.rebuildIfPending store).1.AtRest (preview.rebuildIfPending store).2.1 := by
  have hu := preview.uncollected_collectChanges store
  rw [rebuildIfPending_eq]
  split
  · refine ⟨pending_build _ _, ?_⟩
    rw [Preview.uncollected, subscription_build]
    exact hu
  · rename_i hp
    exact ⟨Bool.eq_false_iff.mpr hp, hu⟩

/-- If anything asks for a build there is one, over the tree as it is. Otherwise the last build ran
over that tree, and nothing changes. -/
theorem Follows.rebuildIfPending_cases {last : Option (Node × BuildStatus)}
    (h : preview.Follows store last) :
    (∃ asked collected, (asked = preview ∨ asked = preview.trigger) ∧
        collected.root = store.root ∧ asked.Follows collected last ∧
        preview.rebuildIfPending store = (asked.build collected, collected, true)) ∨
      (last = some (store.root, preview.status) ∧
        preview.rebuildIfPending store = (preview, store, false)) := by
  by_cases hp : (preview.collectChanges store).1.pending = true
  · refine .inl ⟨_, _, preview.collectChanges_eq store, root_collectChanges preview store,
      h.collectChanges, ?_⟩
    rw [rebuildIfPending_eq, if_pos hp]
  · have hrest := atRest_of_pending_collectChanges (Bool.eq_false_iff.mpr hp)
    exact .inr ⟨h.current hrest.pending hrest.uncollected, hrest.rebuildIfPending⟩

/-- A command that does something to the store asks for a build. -/
theorem Follows.not_atRest_attempt {last : Option (Node × BuildStatus)} {command : Command}
    (h : preview.Follows store last) (hc : store.attempt command ≠ store) :
    ¬ preview.AtRest (store.attempt command) := by
  rcases store.attempt_eq_or_announce command with he | ⟨root, change, he⟩
  · exact absurd he hc
  · rw [he]
    exact fun hr => h.uncollected_announce_ne_nil root change hr.uncollected

end Preview

/-! ### Runs -/

/-- What can happen to a preview and the store that it watches. -/
inductive WatchEvent where
  | command (command : Command)
  | refresh
  | collect
  | build
  | rebuild
deriving Repr

namespace WatchEvent

/-- There is a build, or there is one if anything asks for it. -/
def Builds : WatchEvent → Prop
  | .build | .rebuild => True
  | .command _ | .refresh | .collect => False

/-- The event asks for a build: a request, or a command that does something to the store. -/
def Triggers (store : Store) : WatchEvent → Prop
  | .command attempted => store.attempt attempted ≠ store
  | .refresh => True
  | .collect | .build | .rebuild => False

end WatchEvent

/-- A preview and the store that it watches. -/
structure Watch where
  preview : Preview
  store : Store
  /-- The tree of the last build since the watch began, and the status that the build came to. -/
  last : Option (Node × BuildStatus) := none

namespace Watch

def start (preview : Preview) (store : Store) : Watch :=
  let (preview, store) := preview.watch store
  { preview, store }

def step (watch : Watch) : WatchEvent → Watch
  | .command command => { watch with store := watch.store.attempt command }
  | .refresh => { watch with preview := watch.preview.requestRefresh }
  | .collect =>
    let (preview, store) := watch.preview.collectChanges watch.store
    { watch with preview, store }
  | .build =>
    let preview := watch.preview.build watch.store
    { watch with preview, last := some (watch.store.root, preview.status) }
  | .rebuild =>
    let (preview, store, built) := watch.preview.rebuildIfPending watch.store
    { preview, store, last := if built then some (store.root, preview.status) else watch.last }

def run (preview : Preview) (store : Store) (events : List WatchEvent) : Watch :=
  events.foldl step (start preview store)

/-- What every event keeps. -/
structure Invariant (config : Config) (watch : Watch) : Prop where
  reachable : watch.preview.Reachable config
  follows : watch.preview.Follows watch.store watch.last

variable {config : Config} {watch : Watch}

theorem Invariant.step (h : watch.Invariant config) (event : WatchEvent) :
    (watch.step event).Invariant config := by
  obtain ⟨hreachable, hfollows⟩ := h
  cases event with
  | command command => exact ⟨hreachable, hfollows.attempt command⟩
  | refresh => exact ⟨.refreshed hreachable, hfollows.trigger⟩
  | collect => exact ⟨.collected _ hreachable, hfollows.collectChanges⟩
  | build => exact ⟨.built _ hreachable, hfollows.build⟩
  | rebuild =>
    rw [Watch.step]
    rcases hfollows.rebuildIfPending_cases with
      ⟨asked, collected, ha, _, hasked, he⟩ | ⟨hlast, he⟩ <;> rw [he]
    · refine ⟨.built _ ?_, hasked.build⟩
      rcases ha with rfl | rfl
      · exact hreachable
      · exact .refreshed hreachable
    · exact ⟨hreachable, hfollows⟩

theorem invariant_run {preview : Preview} (h : preview.Reachable config) (store : Store)
    (events : List WatchEvent) : (run preview store events).Invariant config := by
  have hgeneral : ∀ watch : Watch, watch.Invariant config →
      (events.foldl step watch).Invariant config := by
    induction events with
    | nil => exact fun _ h => h
    | cons event rest ih => exact fun watch h => ih _ (h.step event)
  exact hgeneral _ ⟨.watched store h, Preview.follows_watch preview store none⟩

/-- Nothing asks for a build. -/
def AtRest (watch : Watch) : Prop := watch.preview.AtRest watch.store

theorem Invariant.not_atRest_of_triggers (h : watch.Invariant config) {event : WatchEvent}
    (ht : event.Triggers watch.store) : ¬ (watch.step event).AtRest := by
  cases event with
  | command command => exact h.follows.not_atRest_attempt ht
  | refresh => exact Preview.not_atRest_trigger
  | collect | build | rebuild => exact ht.elim

/-- Whatever asks for a build is heard until there is one. -/
theorem Invariant.not_atRest_step (h : watch.Invariant config) (ha : ¬ watch.AtRest)
    {event : WatchEvent} (hb : ¬ event.Builds) : ¬ (watch.step event).AtRest := by
  cases event with
  | command command =>
    by_cases hc : watch.store.attempt command = watch.store
    · rw [Watch.step, hc]
      exact ha
    · exact h.follows.not_atRest_attempt hc
  | refresh => exact Preview.not_atRest_trigger
  | collect => exact Preview.not_atRest_collectChanges ha
  | build | rebuild => exact absurd trivial hb

theorem Invariant.not_atRest_foldl (h : watch.Invariant config) (ha : ¬ watch.AtRest)
    {later : List WatchEvent} (hb : ∀ event ∈ later, ¬ event.Builds) :
    ¬ (later.foldl Watch.step watch).AtRest := by
  induction later generalizing watch with
  | nil => exact ha
  | cons event rest ih =>
    obtain ⟨hevent, hrest⟩ := List.forall_mem_cons.mp hb
    exact ih (h.step event) (h.not_atRest_step ha hevent) hrest

/-- After a call that builds if anything asks for it, the last build ran over the tree of the store
and the status is what it came to. -/
theorem Invariant.last_rebuild (h : watch.Invariant config) :
    (watch.step .rebuild).last =
      some ((watch.step .rebuild).store.root, (watch.step .rebuild).preview.status) := by
  rw [Watch.step]
  rcases h.follows.rebuildIfPending_cases with
    ⟨asked, collected, _, _, _, he⟩ | ⟨hlast, he⟩ <;> rw [he]
  · rfl
  · exact hlast

/-- From the moment a preview watches a store, whatever happens in whatever order: a status is never
left at building, and it is idle only before the first build or when a build is asked for. Once the
preview has built if anything asked for it, the last build ran over the tree that the store has, and
asking again builds nothing and changes nothing. Behind a request or a command that does something to
the store, that call builds, whatever came between them but a build. -/
theorem current_after_rebuild {preview : Preview} (h : preview.Reachable config) (store : Store)
    (events : List WatchEvent) :
    let watch := run preview store events
    let after := watch.step .rebuild
    watch.preview.status ≠ .building ∧
      (watch.preview.status = .idle → watch.preview.builds = 0 ∨ watch.preview.pending = true) ∧
      (∃ tree, after.last = some (tree, after.preview.status) ∧
        tree.same after.store.root = true) ∧
      after.preview.rebuildIfPending after.store = (after.preview, after.store, false) ∧
      ∀ (trigger : WatchEvent) (later : List WatchEvent), trigger.Triggers watch.store →
        (∀ event ∈ later, ¬ event.Builds) →
          let asked := run preview store (events ++ trigger :: later)
          (asked.preview.rebuildIfPending asked.store).2.2 = true := by
  intro watch after
  have hwatch : watch.Invariant config := invariant_run h store events
  obtain ⟨hbuilding, hidle⟩ := hwatch.reachable.rests
  refine ⟨hbuilding, hidle, ⟨_, hwatch.last_rebuild, Node.same_iff.mpr rfl⟩, ?_,
    fun trigger later ht hb => ?_⟩
  · exact (watch.preview.atRest_rebuildIfPending watch.store).rebuildIfPending
  · have hasked := (hwatch.step trigger).not_atRest_foldl (hwatch.not_atRest_of_triggers ht) hb
    rw [run, List.foldl_append]
    exact Preview.built_of_not_atRest hasked

/-- A build runs while the change that it already sees is still in the mailbox, so the next call
builds once more, and the one after it does not. If a request or another command comes first, the
next call builds although the changes have been collected. -/
theorem current_after_uncollected_change :
    let events : List WatchEvent := [.command (.createFile "/App.jsx" "run();\n"), .build]
    let watch := run { config := {} } .empty events
    let after := watch.step .rebuild
    watch.preview.builds = 1 ∧ watch.preview.pending = false ∧ after.preview.builds = 2 ∧
      (∃ tree, after.last = some (tree, after.preview.status) ∧
        tree.same after.store.root = true) ∧
      after.preview.rebuildIfPending after.store = (after.preview, after.store, false) ∧
      ∀ trigger ∈ [WatchEvent.refresh, .command (.deleteFile "/App.jsx")],
        let asked := run { config := {} } .empty (events ++ [trigger, .collect])
        (asked.preview.rebuildIfPending asked.store).2.2 = true := by
  have hp : Preview.Reachable {} { config := {} } := .new
  refine ⟨by decide +kernel, by decide +kernel, by decide +kernel, ?_⟩
  obtain ⟨hlast, hagain, htrigger⟩ := (current_after_rebuild hp .empty
    [.command (.createFile "/App.jsx" "run();\n"), .build]).2.2
  refine ⟨hlast, hagain, fun trigger hm => htrigger trigger [.collect] ?_ ?_⟩
  · rcases List.mem_pair.mp hm with rfl | rfl
    · trivial
    · exact fun he => absurd (congrArg Store.fileCount he) (by decide +kernel)
  · exact List.forall_mem_singleton.mpr id

end Watch

end LivePreview
