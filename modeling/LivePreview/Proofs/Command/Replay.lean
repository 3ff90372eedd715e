import LivePreview.Proofs.Store.Step

/-!
# Replaying commands

A command looks at the tree of a store and at nothing else, so a list of commands that runs through
on one store runs through on every store with the same tree, and ends in the same tree.
-/
namespace LivePreview

namespace Node

mutual

theorem same_iff {a b : Node} : a.same b = true ↔ a = b := by
  cases a with
  | file path content =>
    cases b with
    | file path' content' => simp [same]
    | directory path' children' => simp [same]
  | directory path children =>
    cases b with
    | file path' content' => simp [same]
    | directory path' children' =>
      rw [same, Bool.and_eq_true, beq_iff_eq, sameChildren_iff, directory.injEq]

theorem sameChildren_iff {a b : List (String × Node)} : sameChildren a b = true ↔ a = b := by
  cases a with
  | nil => cases b <;> simp [sameChildren]
  | cons entry rest =>
    obtain ⟨name, node⟩ := entry
    cases b with
    | nil => simp [sameChildren]
    | cons entry' rest' =>
      obtain ⟨name', node'⟩ := entry'
      rw [sameChildren, Bool.and_eq_true, Bool.and_eq_true, beq_iff_eq, same_iff,
        sameChildren_iff, List.cons.injEq, Prod.mk.injEq]

end

end Node

namespace Store

theorem sameTree_iff {a b : Store} : a.sameTree b = true ↔ a.root = b.root :=
  Node.same_iff

/-- Whoever receives the announcements of a store has no part in its steps. -/
theorem Step.of_root_eq {store other store' : Store} {command : Command}
    (h : store.Step command store') (hr : store.root = other.root) :
    ∃ other', other.Step command other' ∧ store'.root = other'.root := by
  obtain ⟨root, changes⟩ := store
  obtain ⟨root', changes'⟩ := other
  obtain rfl : root = root' := hr
  cases h with
  | createFile hp hn hu => exact ⟨_, .createFile hp hn hu, rfl⟩
  | replaceFile hp hf => exact ⟨_, .replaceFile hp hf, rfl⟩
  | updateFile hp hf => exact ⟨_, .updateFile hp hf, rfl⟩
  | createDirectory hp hn hu => exact ⟨_, .createDirectory hp hn hu, rfl⟩
  | keepDirectory hp hd => exact ⟨_, .keepDirectory hp hd, rfl⟩
  | replaceInFile hp hf hne ho => exact ⟨_, .replaceInFile hp hf hne ho, rfl⟩
  | insertInFile hp hf hl => exact ⟨_, .insertInFile hp hf hl, rfl⟩
  | deleteFile hp hf => exact ⟨_, .deleteFile hp hf, rfl⟩
  | deleteDirectory hp hr hd => exact ⟨_, .deleteDirectory hp hr hd, rfl⟩
  | rename hs ht hrs hrt hn hw hf hu => exact ⟨_, .rename hs ht hrs hrt hn hw hf hu, rfl⟩
  | keepPlace hs ht hr hn => exact ⟨_, .keepPlace hs ht hr hn, rfl⟩

/-! ### One command after the other -/

/-- The commands succeed one after the other, and the last of them leaves `last`. -/
inductive Produces : Store → List Command → Store → Prop
  | nil (store : Store) : Produces store [] store
  | cons {store next last : Store} {command : Command} {rest : List Command}
      (ha : command.apply store = .ok () next) (hr : Produces next rest last) :
      Produces store (command :: rest) last

theorem Produces.append {store middle last : Store} {commands more : List Command}
    (h : store.Produces commands middle) (h' : middle.Produces more last) :
    store.Produces (commands ++ more) last := by
  induction h with
  | nil store => exact h'
  | cons ha _ ih => exact .cons ha (ih h')

theorem Produces.of_root_eq {store other last : Store} {commands : List Command}
    (h : store.Produces commands last) (hr : store.root = other.root) :
    ∃ last', other.Produces commands last' ∧ last.root = last'.root := by
  induction h generalizing other with
  | nil store => exact ⟨other, .nil other, hr⟩
  | cons ha _ ih =>
    obtain ⟨next', hstep, hnext⟩ := (Command.step_of_apply ha).of_root_eq hr
    obtain ⟨last', hlast, hroot⟩ := ih hnext
    exact ⟨last', .cons hstep.apply_eq hlast, hroot⟩

/-- A replay that comes to its end has applied one command after the other and counted them all. -/
theorem replayFrom_eq_ok_iff {store last : Store} {applied count : Nat} {commands : List Command} :
    store.replayFrom applied commands = (last, .ok count) ↔
      store.Produces commands last ∧ count = applied + commands.length := by
  induction commands generalizing store applied with
  | nil =>
    rw [replayFrom, List.length_nil, Nat.add_zero]
    constructor
    · intro h
      cases h
      exact ⟨.nil last, rfl⟩
    · rintro ⟨hp, rfl⟩
      cases hp
      rfl
  | cons command rest ih =>
    rw [replayFrom, List.length_cons, Nat.add_comm rest.length, ← Nat.add_assoc]
    cases ha : command.apply store with
    | ok _ next =>
      rw [ih]
      refine and_congr_left fun _ => ⟨.cons ha, fun hp => ?_⟩
      cases hp with
      | cons ha' hr =>
        cases ha.symm.trans ha'
        exact hr
    | error cause left =>
      constructor
      · intro h
        cases (Prod.mk.inj h).2
      · rintro ⟨hp, -⟩
        cases hp with
        | cons ha' hr => cases ha.symm.trans ha'

theorem replay_eq_none_iff {store last : Store} {commands : List Command} :
    store.replay commands = (last, none) ↔ store.Produces commands last := by
  unfold replay replayCounting
  constructor
  · intro h
    split at h
    · rename_i left count heq
      obtain rfl := (Prod.mk.inj h).1
      exact (replayFrom_eq_ok_iff.mp heq).1
    · cases (Prod.mk.inj h).2
  · intro h
    have hr : store.replayFrom 0 commands = (last, .ok (0 + commands.length)) :=
      replayFrom_eq_ok_iff.mpr ⟨h, rfl⟩
    rw [hr]

/-! ### The tree that commands lead to -/

/-- The commands run through on the store and leave it with that tree. -/
def RunsTo (store : Store) (commands : List Command) (root : Node) : Prop :=
  ∃ store', store.replay commands = (store', none) ∧ store'.root = root

theorem runsTo_iff {store : Store} {commands : List Command} {root : Node} :
    store.RunsTo commands root ↔ ∃ last, store.Produces commands last ∧ last.root = root := by
  simp only [RunsTo, replay_eq_none_iff]

theorem RunsTo.nil (store : Store) : store.RunsTo [] store.root := ⟨store, rfl, rfl⟩

theorem RunsTo.of_root_eq {store other : Store} {commands : List Command} {root : Node}
    (h : store.RunsTo commands root) (hr : store.root = other.root) :
    other.RunsTo commands root := by
  obtain ⟨last, hlast, rfl⟩ := runsTo_iff.mp h
  obtain ⟨last', hlast', hroot⟩ := hlast.of_root_eq hr
  exact runsTo_iff.mpr ⟨last', hlast', hroot.symm⟩

/-- One command more. -/
theorem RunsTo.concat {store current next : Store} {commands : List Command} {command : Command}
    (h : store.RunsTo commands current.root) (hs : command.apply current = .ok () next) :
    store.RunsTo (commands ++ [command]) next.root := by
  obtain ⟨last, hlast, hroot⟩ := runsTo_iff.mp h
  obtain ⟨last', hstep, hroot'⟩ := (Command.step_of_apply hs).of_root_eq hroot.symm
  exact runsTo_iff.mpr ⟨last', hlast.append (.cons hstep.apply_eq (.nil last')), hroot'.symm⟩

end Store

end LivePreview
