import LivePreview.Proofs.Command.Edit
import LivePreview.Proofs.Preview.Incremental
import LivePreview.Proofs.Preview.Tree
import LivePreview.Proofs.Preview.Watch
import LivePreview.Session

/-!
# Sessions and their batches

However its events are split into batches, a session ends with the same tree, has refused the same
commands, and shows the status that a new preview comes to on that tree. Only the number of builds
depends on the batches: one for each at most.
-/
namespace LivePreview

def SessionEvent.command? : SessionEvent → Option Command
  | .command logged => some logged.command
  | .refresh => none

/-- The commands among some events, in their order. -/
def SessionEvent.commands (events : List SessionEvent) : List Command :=
  events.filterMap command?

theorem SessionEvent.commands_cons (event : SessionEvent) (rest : List SessionEvent) :
    commands (event :: rest) = event.command?.toList ++ commands rest := by
  rw [commands, List.filterMap_cons]
  cases event.command? <;> rfl

theorem SessionEvent.commands_append (first second : List SessionEvent) :
    commands (first ++ second) = commands first ++ commands second :=
  List.filterMap_append

namespace Preview

variable {config : Config} {stores : List Store} {preview : Preview} {store source : Store}

theorem Settled.trigger (h : preview.Settled config stores) :
    preview.trigger.Settled config stores :=
  ⟨h.config_eq, h.sound, h.bound⟩

theorem Follows.edit {last : Option (Node × BuildStatus)} (h : preview.Follows store last)
    (commands : List Command) : preview.Follows (store.edit commands) last := by
  induction commands generalizing store with
  | nil => exact h
  | cons command rest ih =>
    rw [Store.edit_cons]
    exact ih (h.attempt command)

/-- The last build came to what a new preview comes to on that tree. -/
def Answers (config : Config) (stores : List Store) (last : Option (Node × BuildStatus)) : Prop :=
  ∀ tree status, last = some (tree, status) → ∀ store ∈ stores, store.root = tree →
    status.forget = (Preview.build { config } store).status.forget

/-- A build over the tree of a known store leaves nothing behind that a later build could trip over,
and comes to what a new preview comes to. -/
theorem Settled.build_of_root_eq (h : preview.Settled config stores)
    (ha : KeysAgree (config.Meets stores)) (hs : source ∈ stores) (hr : store.root = source.root) :
    (preview.build store).Settled config stores ∧
      Answers config stores (some (preview.buildRecord store)) := by
  rw [buildRecord, Preview.build_of_root_eq hr]
  refine ⟨h.build ha hs, ?_⟩
  rintro tree status he other ho rfl
  obtain ⟨hroot, rfl⟩ := Prod.mk.inj (Option.some.inj he)
  rw [Preview.build_of_root_eq (hr.symm.trans hroot)]
  exact (h.build_alike (settled_new config stores) ha ho).1

end Preview

namespace Session

/-! ### Events -/

/-- A session that has handled events with these commands: the store has attempted them, those that
failed are counted, and of the preview no more has changed than that it may be asked to build. -/
structure Handled (session : Session) (commands : List Command) (after : Session) : Prop where
  preview_eq : after.preview = session.preview ∨ after.preview = session.preview.trigger
  store_eq : after.store = session.store.edit commands
  rejected_eq : after.rejected = session.rejected + session.store.refusals commands

theorem handle_command (session : Session) (logged : LoggedCommand) :
    session.handle (.command logged) =
      { session with
        store := session.store.attempt logged.command
        rejected := session.rejected + session.store.refusals [logged.command] } := by
  rw [handle]
  rcases logged.command.apply_cases session.store with ⟨next, ha, -⟩ | ⟨cause, ha⟩
  · rw [Store.attempt_of_ok ha, Store.refusals_of_ok ha, ha]
    rfl
  · rw [Store.attempt_of_error ha, Store.refusals_of_error ha, ha]

theorem handled_handle (session : Session) (event : SessionEvent) :
    session.Handled event.command?.toList (session.handle event) := by
  cases event with
  | refresh => exact ⟨.inr rfl, rfl, rfl⟩
  | command logged =>
    rw [handle_command]
    exact ⟨.inl rfl, (session.store.edit_singleton logged.command).symm, rfl⟩

theorem Handled.trans {session next after : Session} {first second : List Command}
    (h : session.Handled first next) (h' : next.Handled second after) :
    session.Handled (first ++ second) after where
  preview_eq := Preview.asked_trans h.preview_eq h'.preview_eq
  store_eq := by rw [h'.store_eq, h.store_eq, Store.edit_append]
  rejected_eq := by
    rw [h'.rejected_eq, h.rejected_eq, h.store_eq, Store.refusals_append, Nat.add_assoc]

theorem handled_foldl (session : Session) (events : List SessionEvent) :
    session.Handled (SessionEvent.commands events) (events.foldl handle session) := by
  induction events generalizing session with
  | nil => exact ⟨.inl rfl, rfl, rfl⟩
  | cons event rest ih =>
    rw [SessionEvent.commands_cons]
    exact (session.handled_handle event).trans (ih _)

theorem Handled.follows {session after : Session} {commands : List Command}
    {last : Option (Node × BuildStatus)} (h : session.Handled commands after)
    (hf : session.preview.Follows session.store last) : after.preview.Follows after.store last := by
  rw [h.store_eq]
  rcases h.preview_eq with he | he <;> rw [he]
  · exact hf.edit commands
  · exact (hf.edit commands).trigger

theorem Handled.settled {session after : Session} {commands : List Command} {config : Config}
    {stores : List Store} (h : session.Handled commands after)
    (hs : session.preview.Settled config stores) : after.preview.Settled config stores := by
  rcases h.preview_eq with he | he <;> rw [he]
  · exact hs
  · exact hs.trigger

/-! ### Builds -/

theorem rebuild_eq (session : Session) :
    session.rebuild =
      { session with
        preview := (session.preview.rebuildIfPending session.store).1
        store := (session.preview.rebuildIfPending session.store).2.1 } :=
  rfl

theorem handleBatch_of_ne_nil (session : Session) {batch : List SessionEvent} (h : batch ≠ []) :
    session.handleBatch batch = (batch.foldl handle session).rebuild := by
  rw [handleBatch, List.isEmpty_eq_false_iff.mpr h]
  rfl

/-- Nothing asks for a build. -/
def AtRest (session : Session) : Prop := session.preview.AtRest session.store

theorem atRest_rebuild (session : Session) : session.rebuild.AtRest :=
  Preview.atRest_rebuildIfPending _ _

theorem AtRest.rebuild {session : Session} (h : session.AtRest) : session.rebuild = session := by
  rw [rebuild_eq, Preview.AtRest.rebuildIfPending h]

theorem builds_rebuild (session : Session) :
    session.preview.builds ≤ session.rebuild.preview.builds ∧
      session.rebuild.preview.builds ≤ session.preview.builds + 1 ∧
      (session.preview.pending = true →
        session.rebuild.preview.builds = session.preview.builds + 1) := by
  have hcollected := session.preview.collectChanges_eq session.store
  rw [rebuild_eq, Preview.rebuildIfPending_eq]
  generalize session.preview.collectChanges session.store = collected at hcollected ⊢
  have hbuilds : collected.1.builds = session.preview.builds := by
    rcases hcollected with he | he <;> rw [he]
    rfl
  have hpending : session.preview.pending = true → collected.1.pending = true := by
    intro hp
    rcases hcollected with he | he <;> rw [he]
    · exact hp
    · rfl
  split
  · dsimp only
    rw [Preview.builds_build, hbuilds]
    omega
  · rename_i hnot
    dsimp only
    rw [hbuilds]
    exact ⟨Nat.le_refl _, Nat.le_succ _, fun hp => absurd (hpending hp) hnot⟩

theorem builds_foldl_handle (session : Session) (events : List SessionEvent) :
    (events.foldl handle session).preview.builds = session.preview.builds ∧
      (session.preview.pending = true →
        (events.foldl handle session).preview.pending = true) := by
  rcases (session.handled_foldl events).preview_eq with he | he <;> rw [he]
  · exact ⟨rfl, id⟩
  · exact ⟨rfl, fun _ => rfl⟩

theorem builds_foldl_handleBatch {session : Session} {batches : List (List SessionEvent)}
    (h : session.AtRest) (hb : ∀ batch ∈ batches, batch ≠ []) :
    (batches.foldl handleBatch session).AtRest ∧
      session.preview.builds ≤ (batches.foldl handleBatch session).preview.builds ∧
      (batches.foldl handleBatch session).preview.builds ≤
        session.preview.builds + batches.length := by
  induction batches generalizing session with
  | nil => exact ⟨h, Nat.le_refl _, Nat.le_refl _⟩
  | cons batch rest ih =>
    obtain ⟨hbatch, hrest⟩ := List.forall_mem_cons.mp hb
    rw [List.foldl_cons, handleBatch_of_ne_nil session hbatch]
    obtain ⟨hsame, _⟩ := session.builds_foldl_handle batch
    obtain ⟨hlow, hhigh, _⟩ := (batch.foldl handle session).builds_rebuild
    obtain ⟨hat, hmin, hmax⟩ := ih (atRest_rebuild (batch.foldl handle session)) hrest
    refine ⟨hat, ?_, ?_⟩
    · omega
    · rw [List.length_cons]
      omega

/-- A session that was asked to build does so once at least, and no more often than there are
batches. -/
theorem builds_run {session : Session} {batches : List (List SessionEvent)}
    (h : session.preview.pending = true) (hb : ∀ batch ∈ batches, batch ≠ []) :
    session.preview.builds + 1 ≤ (session.run batches).preview.builds ∧
      (session.run batches).preview.builds ≤ session.preview.builds + max 1 batches.length := by
  rw [run]
  cases batches with
  | nil =>
    have hbuilds := session.builds_rebuild.2.2 h
    exact ⟨Nat.le_of_eq hbuilds.symm, Nat.le_of_eq hbuilds⟩
  | cons batch rest =>
    obtain ⟨hbatch, hrest⟩ := List.forall_mem_cons.mp hb
    rw [List.foldl_cons, handleBatch_of_ne_nil session hbatch]
    obtain ⟨hsame, hpending⟩ := session.builds_foldl_handle batch
    have hfirst := (batch.foldl handle session).builds_rebuild.2.2 (hpending h)
    obtain ⟨hat, hmin, hmax⟩ :=
      builds_foldl_handleBatch (atRest_rebuild (batch.foldl handle session)) hrest
    rw [hat.rebuild, List.length_cons]
    omega

/-! ### One batch -/

theorem run_singleton (session : Session) (events : List SessionEvent) :
    session.run [events] = (events.foldl handle session).rebuild := by
  rw [run, List.foldl_cons, List.foldl_nil]
  cases events with
  | nil => rfl
  | cons event rest =>
    rw [handleBatch_of_ne_nil session (List.cons_ne_nil event rest)]
    exact (atRest_rebuild _).rebuild

/-- Where all events come in one batch there is one build, and its status is the one that the
preview comes to on the tree that the commands lead to. -/
theorem run_once (preview : Preview) (store : Store) (events : List SessionEvent) :
    let session := (start store preview).run [events]
    let final := store.edit (SessionEvent.commands events)
    session.store.root = final.root ∧
      session.rejected = store.refusals (SessionEvent.commands events) ∧
      session.preview.status = (preview.build final).status := by
  let started := start store preview
  let handled := events.foldl handle started
  have hstart : started.store.root = store.root := rfl
  have hhandled : started.Handled (SessionEvent.commands events) handled :=
    started.handled_foldl events
  have hroot : handled.store.root = (store.edit (SessionEvent.commands events)).root := by
    rw [hhandled.store_eq, Store.edit_of_root_eq hstart]
  have hrejected : handled.rejected = store.refusals (SessionEvent.commands events) := by
    rw [hhandled.rejected_eq, Store.refusals_of_root_eq hstart]
    exact Nat.zero_add _
  have hasked := Preview.asked_trans hhandled.preview_eq
    (handled.preview.collectChanges_eq handled.store)
  have hpending : (handled.preview.collectChanges handled.store).1.pending = true := by
    rcases hasked with he | he <;> rw [he] <;> rfl
  have hcollected := (handled.preview.root_collectChanges handled.store).trans hroot
  rw [run_singleton, rebuild_eq, Preview.rebuildIfPending_eq, if_pos hpending]
  refine ⟨hcollected, hrejected, ?_⟩
  dsimp only
  rw [Preview.build_of_root_eq hcollected]
  have hstarted : started.preview.config = preview.config ∧ started.preview.memo = preview.memo ∧
      started.preview.registry = preview.registry := ⟨rfl, rfl, rfl⟩
  rcases hasked with he | he <;> rw [he]
  · exact Preview.status_build_eq hstarted.1 hstarted.2.1 hstarted.2.2 _
  · exact Preview.status_build_eq hstarted.1 hstarted.2.1 hstarted.2.2 _

/-! ### What every batch keeps -/

variable {config : Config} {stores : List Store} {source : Store} {session : Session}

/-- The session has the tree of `source`, and whenever nothing asks for a build it shows what a new
preview comes to on its tree. -/
structure Invariant (config : Config) (stores : List Store) (source : Store) (session : Session) :
    Prop where
  settled : session.preview.Settled config stores
  follows : ∃ last, session.preview.Follows session.store last ∧ Preview.Answers config stores last
  root_eq : session.store.root = source.root

theorem invariant_start {preview : Preview} (h : preview.Settled config stores) (store : Store) :
    (start store preview).Invariant config stores store where
  settled := Preview.Settled.trigger ⟨h.config_eq, h.sound, h.bound⟩
  follows := ⟨none, Preview.follows_watch preview store none, fun _ _ h => nomatch h⟩
  root_eq := rfl

namespace Invariant

theorem handled {after : Session} {commands : List Command}
    (h : session.Invariant config stores source) (hh : session.Handled commands after) :
    after.Invariant config stores (source.edit commands) where
  settled := hh.settled h.settled
  follows := by
    obtain ⟨last, hfollows, hlast⟩ := h.follows
    exact ⟨last, hh.follows hfollows, hlast⟩
  root_eq := by
    rw [hh.store_eq]
    exact Store.edit_of_root_eq h.root_eq _

/-- A rebuild, whether it builds or not, leaves the status that a new preview comes to. -/
theorem rebuild (h : session.Invariant config stores source)
    (ha : KeysAgree (config.Meets stores)) (hs : source ∈ stores) :
    session.rebuild.Invariant config stores source ∧
      session.rebuild.preview.status.forget = (Preview.build { config } source).status.forget := by
  obtain ⟨last, hfollows, hlast⟩ := h.follows
  rw [rebuild_eq]
  rcases hfollows.rebuildIfPending_cases with
    ⟨asked, collected, hasked, hroot, hcollected, he⟩ | ⟨rfl, he⟩ <;> rw [he]
  · have hr : collected.root = source.root := hroot.trans h.root_eq
    have hsettled : asked.Settled config stores := by
      rcases hasked with rfl | rfl
      · exact h.settled
      · exact h.settled.trigger
    obtain ⟨hbuilt, hanswers⟩ := hsettled.build_of_root_eq ha hs hr
    exact ⟨⟨hbuilt, ⟨_, hcollected.build, hanswers⟩, hr⟩, hanswers _ _ rfl source hs hr.symm⟩
  · exact ⟨h, hlast _ _ rfl source hs h.root_eq.symm⟩

end Invariant

/-! ### Whole runs -/

/-- The stores that a session comes to, batch after batch; without any batch the one that it starts
on. -/
def stages (store : Store) : List (List SessionEvent) → List Store
  | [] => [store]
  | batch :: rest =>
    let next := store.edit (SessionEvent.commands batch)
    next :: stages next rest

theorem last_mem_stages (store : Store) (batches : List (List SessionEvent)) :
    store.edit (SessionEvent.commands batches.flatten) ∈ stages store batches := by
  induction batches generalizing store with
  | nil => exact List.mem_singleton.mpr rfl
  | cons batch rest ih =>
    rw [List.flatten_cons, SessionEvent.commands_append, Store.edit_append]
    exact List.mem_cons_of_mem _ (ih _)

theorem reachable_of_mem_stages {store stage : Store} {batches : List (List SessionEvent)}
    (h : store.Reachable) (hm : stage ∈ stages store batches) : stage.Reachable := by
  induction batches generalizing store with
  | nil =>
    obtain rfl := List.mem_singleton.mp hm
    exact h
  | cons batch rest ih =>
    rcases List.mem_cons.mp hm with rfl | hm
    · exact h.edit _
    · exact ih (h.edit _) hm

theorem Invariant.foldl_handleBatch {batches : List (List SessionEvent)}
    (h : session.Invariant config stores source) (ha : KeysAgree (config.Meets stores))
    (hb : ∀ batch ∈ batches, batch ≠ []) (hs : ∀ stage ∈ stages source batches, stage ∈ stores) :
    (batches.foldl handleBatch session).Invariant config stores
        (source.edit (SessionEvent.commands batches.flatten)) ∧
      (batches.foldl handleBatch session).rejected =
        session.rejected + source.refusals (SessionEvent.commands batches.flatten) := by
  induction batches generalizing session source with
  | nil => exact ⟨h, rfl⟩
  | cons batch rest ih =>
    obtain ⟨hbatch, hrest⟩ := List.forall_mem_cons.mp hb
    obtain ⟨hnext, hlater⟩ := List.forall_mem_cons.mp hs
    rw [List.foldl_cons, handleBatch_of_ne_nil session hbatch, List.flatten_cons,
      SessionEvent.commands_append, Store.edit_append, Store.refusals_append]
    have hhandled := session.handled_foldl batch
    obtain ⟨hinvariant, hrejected⟩ := ih ((h.handled hhandled).rebuild ha hnext).1 hrest hlater
    refine ⟨hinvariant, hrejected.trans ?_⟩
    change (batch.foldl handle session).rejected + _ = _
    rw [hhandled.rejected_eq, Store.refusals_of_root_eq h.root_eq, Nat.add_assoc]

/-- However the events of a session are split into batches, it ends with the tree that its commands
lead to when those that fail are passed over, has counted these, has built once at least and no more
often than there are batches, and shows what a new preview comes to on that tree, in everything but
generation numbers and the statistics of the memo, provided that no fingerprints of what its builds
and the earlier ones of its preview hash collide. The numbers that the commands carry have no part
in it. -/
theorem run_of_flatten_eq (config : Config) (history : List Store) (store : Store)
    (events : List SessionEvent) (batches : List (List SessionEvent))
    (hsplit : batches.flatten = events) (hb : ∀ batch ∈ batches, batch ≠ [])
    (hr : ∀ s ∈ store :: history, s.Reachable)
    (hn : NoCollisions ((history ++ stages store batches).flatMap config.hashed)) :
    let preview := history.foldl Preview.build { config }
    let final := store.edit (SessionEvent.commands events)
    let session := (start store preview).run batches
    session.store.sameTree final = true ∧
      session.rejected = store.refusals (SessionEvent.commands events) ∧
      preview.builds + 1 ≤ session.preview.builds ∧
      session.preview.builds ≤ preview.builds + max 1 batches.length ∧
      session.preview.status.forget = (Preview.build { config } final).status.forget := by
  intro preview final session
  subst hsplit
  obtain ⟨hstore, hhistory⟩ := List.forall_mem_cons.mp hr
  let stores := history ++ stages store batches
  have hreachable : ∀ s ∈ stores, s.Reachable := fun s hs =>
    (List.mem_append.mp hs).elim (hhistory s) (reachable_of_mem_stages hstore)
  have ha : KeysAgree (config.Meets stores) := Config.keysAgree_meets hreachable hn
  have hsettled : preview.Settled config stores :=
    (Preview.settled_new config stores).foldl_build ha fun _ => List.mem_append_left _
  obtain ⟨hinvariant, hrejected⟩ := (invariant_start hsettled store).foldl_handleBatch ha hb
    fun _ => List.mem_append_right _
  have hfinal : final ∈ stores := List.mem_append_right _ (last_mem_stages store batches)
  obtain ⟨hlast, hstatus⟩ := hinvariant.rebuild ha hfinal
  have hasked : (start store preview).preview.pending = true := rfl
  obtain ⟨hmin, hmax⟩ := builds_run hasked hb
  refine ⟨Store.sameTree_iff.mpr hlast.root_eq, ?_, hmin, hmax, hstatus⟩
  exact hrejected.trans (Nat.zero_add _)

/-- Two batches and a command that is refused, on a preview that has failed once: the first build
fails, the second is ready. -/
theorem run_of_refused_command :
    let first := [SessionEvent.command ⟨0, .createFile "/App.jsx" "import './b.js';\n"⟩]
    let second := [.refresh, .command ⟨7, .deleteFile "/c.js"⟩,
      .command ⟨8, .createFile "/b.js" "run();\n"⟩]
    let preview := [Store.empty].foldl Preview.build { config := {} }
    let final := Store.empty.edit (SessionEvent.commands (first ++ second))
    let session := (start .empty preview).run [first, second]
    session.rejected = 1 ∧ session.preview.builds = 3 ∧ session.preview.status.isFailed = false ∧
      session.preview.status.forget = (Preview.build { config := {} } final).status.forget := by
  refine ⟨by decide +kernel, by decide +kernel, by decide +kernel, ?_⟩
  refine (run_of_flatten_eq {} [.empty] .empty _ [_, _] rfl ?_ ?_ (by decide +kernel)).2.2.2.2
  · decide +kernel
  · simp [Store.Reachable.empty]

end Session

end LivePreview
