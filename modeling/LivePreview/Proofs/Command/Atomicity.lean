import LivePreview.Proofs.Command.Replay
import LivePreview.Proofs.Store.FlatTree

/-!
# Replays

A replay applies commands one after the other. It ends behind the last one, with their number, or at
the first that fails, and then the store is as the commands in front of that one left it: neither the
commands behind it nor the failed one itself have any part in it.
-/
namespace LivePreview

/-- Commands that a flat tree permits one after the other. -/
inductive FlatTree.Run : FlatTree → List Command → FlatTree → Prop
  | nil (tree : FlatTree) : Run tree [] tree
  | cons {tree next last : FlatTree} {command : Command} {rest : List Command}
      (hs : tree.Step command next) (hr : Run next rest last) : Run tree (command :: rest) last

namespace Store

variable {store last : Store} {commands more : List Command} {count : Nat}

theorem produces_append_iff :
    store.Produces (commands ++ more) last ↔
      ∃ middle, store.Produces commands middle ∧ middle.Produces more last := by
  constructor
  · intro h
    induction commands generalizing store with
    | nil => exact ⟨store, .nil store, h⟩
    | cons command rest ih =>
      cases h with
      | cons ha hr =>
        obtain ⟨middle, hrest, hmore⟩ := ih hr
        exact ⟨middle, .cons ha hrest, hmore⟩
  · rintro ⟨middle, hfirst, hsecond⟩
    exact hfirst.append hsecond

/-- Each command that succeeds is a step of the flat tree, so all of them are a run of it. -/
theorem Produces.run (h : store.WellFormed) (hp : store.Produces commands last) :
    last.WellFormed ∧ FlatTree.Run store.flat commands last.flat := by
  induction hp with
  | nil store => exact ⟨h, .nil _⟩
  | cons ha _ ih =>
    have hstep := Command.step_of_apply ha
    obtain ⟨hlast, hrun⟩ := ih (hstep.wellFormed h)
    exact ⟨hlast, .cons (hstep.flat h) hrun⟩

/-- A command fails only if the flat tree does not permit it. -/
theorem not_step_of_apply_eq_error {command : Command} {cause : StoreError} {left : Store}
    (h : store.WellFormed) (he : command.apply store = .error cause left) (tree : FlatTree) :
    ¬ FlatTree.Step store.flat command tree := by
  intro hs
  obtain ⟨next, hstep, -⟩ := hs.exists_step h
  rw [hstep.apply_eq] at he
  cases he

/-! ### Runs -/

/-- How the replay of commands that have `applied` others before them can end. The command that
fails leaves what those in front of it have made. -/
theorem replayFrom_cases (store : Store) (applied : Nat) (commands : List Command) :
    (∃ last, store.Produces commands last ∧
      store.replayFrom applied commands = (last, .ok (applied + commands.length))) ∨
    ∃ front command behind last cause, commands = front ++ command :: behind ∧
      store.Produces front last ∧ command.apply last = .error cause last ∧
      store.replayFrom applied commands =
        (last, .error ⟨applied + front.length, command, cause⟩) := by
  induction commands generalizing store applied with
  | nil => exact .inl ⟨store, .nil store, rfl⟩
  | cons command rest ih =>
    rw [replayFrom]
    rcases command.apply_cases store with ⟨next, ha, -⟩ | ⟨cause, ha⟩ <;> rw [ha]
    · rcases ih next (applied + 1) with ⟨last, hp, hr⟩ | ⟨front, failed, behind, last, cause, hc, hp,
        he, hr⟩
      · refine .inl ⟨last, .cons ha hp, ?_⟩
        rw [List.length_cons, Nat.add_comm rest.length, ← Nat.add_assoc]
        exact hr
      · refine .inr ⟨command :: front, failed, behind, last, cause, ?_, .cons ha hp, he, ?_⟩
        · rw [hc, List.cons_append]
        · rw [List.length_cons, Nat.add_comm front.length, ← Nat.add_assoc]
          exact hr
    · exact .inr ⟨[], command, rest, store, cause, rfl, .nil store, ha, rfl⟩

theorem replayCounting_eq_ok_iff :
    store.replayCounting commands = (last, .ok count) ↔
      store.Produces commands last ∧ count = commands.length := by
  rw [replayCounting, replayFrom_eq_ok_iff, Nat.zero_add]

/-- Two lists in a row run through exactly if the second runs through on what the first leaves. -/
theorem replayCounting_append_eq_ok_iff :
    store.replayCounting (commands ++ more) = (last, .ok count) ↔
      ∃ middle, store.replayCounting commands = (middle, .ok commands.length) ∧
        middle.replayCounting more = (last, .ok more.length) ∧
        count = (commands ++ more).length := by
  simp only [replayCounting_eq_ok_iff, produces_append_iff, and_true]
  constructor
  · rintro ⟨⟨middle, hfirst, hsecond⟩, hcount⟩
    exact ⟨middle, hfirst, hsecond, hcount⟩
  · rintro ⟨middle, hfirst, hsecond, hcount⟩
    exact ⟨⟨middle, hfirst, hsecond⟩, hcount⟩

/-- A replay counts all commands and leaves the store that they make of it in order, or stops at the
first that the tree does not permit, which leaves the store exactly as those in front of it have made
it. A command that fails changes nothing, neither the tree nor what waits for the receivers. Two
lists in a row are replayed like one. -/
theorem Reachable.replay_atomic (h : store.Reachable) (commands : List Command) :
    ((∃ last, store.replayCounting commands = (last, .ok commands.length) ∧
        store.Produces commands last ∧ FlatTree.Run store.flat commands last.flat) ∨
      ∃ i command cause last,
        store.replayCounting commands = (last, .error ⟨i, command, cause⟩) ∧
        commands[i]? = some command ∧ store.Produces (commands.take i) last ∧
        FlatTree.Run store.flat (commands.take i) last.flat ∧
        command.apply last = .error cause last ∧
        ∀ tree, ¬ FlatTree.Step last.flat command tree) ∧
    (∀ (command : Command) cause left,
      command.apply store = .error cause left → left = store) ∧
    ∀ more last count,
      store.replayCounting (commands ++ more) = (last, .ok count) ↔
        ∃ middle, store.replayCounting commands = (middle, .ok commands.length) ∧
          middle.replayCounting more = (last, .ok more.length) ∧
          count = (commands ++ more).length := by
  refine ⟨?_, fun command => command.atomic_apply store,
    fun _ _ _ => replayCounting_append_eq_ok_iff⟩
  rcases replayFrom_cases store 0 commands with ⟨last, hp, hr⟩ | ⟨front, command, behind, last,
    cause, rfl, hp, he, hr⟩
  · rw [Nat.zero_add] at hr
    exact .inl ⟨last, hr, hp, (hp.run h.wellFormed).2⟩
  · rw [Nat.zero_add] at hr
    obtain ⟨hlast, hrun⟩ := hp.run h.wellFormed
    refine .inr ⟨front.length, command, cause, last, hr, ?_, ?_, ?_, he,
      not_step_of_apply_eq_error hlast he⟩
    · rw [List.getElem?_append_right (Nat.le_refl _), Nat.sub_self, List.getElem?_cons_zero]
    · rwa [List.take_left]
    · rwa [List.take_left]

/-- The third command would move a file below itself. It leaves what the first two have made, and the
fourth is not tried. -/
theorem replay_atomic_of_refused_rename :
    let commands : List Command :=
      [.createFile "/a" "x", .createDirectory "/d", .rename "/a" "/a/b", .deleteFile "/a"]
    let cause := StoreError.invalidPath (.intoOwnSubtree ⟨["a"]⟩ ⟨["a", "b"]⟩)
    ∃ last, Store.empty.replayCounting commands =
        (last, .error ⟨2, .rename "/a" "/a/b", cause⟩) ∧
      Store.empty.Produces [.createFile "/a" "x", .createDirectory "/d"] last ∧
      Command.apply (.rename "/a" "/a/b") last = .error cause last ∧
      ∀ tree, ¬ FlatTree.Step last.flat (.rename "/a" "/a/b") tree := by
  intro commands cause
  have hend : (Store.empty.replayCounting commands).2 =
      .error ⟨2, .rename "/a" "/a/b", cause⟩ := by rfl
  rcases (Reachable.replay_atomic .empty commands).1 with ⟨last, hr, -⟩ | ⟨i, command, cause, last,
    hr, -, hp, -, he, hnot⟩
  · rw [hr] at hend
    cases hend
  · rw [hr] at hend
    cases hend
    exact ⟨last, hr, hp, he, hnot⟩

end Store

end LivePreview
