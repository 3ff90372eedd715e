import LivePreview.Proofs.Command.Replay
import LivePreview.Proofs.Store.Reachable

/-!
# Edits

A store after a list of commands, of which those that fail are passed over. A command that fails
leaves the store as it was, so it comes to the same to attempt them one after the other. What becomes
of the tree and how many commands are refused follows from the tree of the store alone.
-/
namespace LivePreview.Store

/-- The store after commands. One that fails is passed over. -/
def edit (store : Store) : List Command → Store
  | [] => store
  | command :: rest =>
    match command.apply store with
    | .ok _ next => next.edit rest
    | .error _ _ => store.edit rest

/-- How many of the commands fail when those that fail are passed over. -/
def refusals (store : Store) : List Command → Nat
  | [] => 0
  | command :: rest =>
    match command.apply store with
    | .ok _ next => next.refusals rest
    | .error _ _ => store.refusals rest + 1

theorem edit_cons (store : Store) (command : Command) (rest : List Command) :
    store.edit (command :: rest) = (store.attempt command).edit rest := by
  rw [edit]
  rcases command.apply_cases store with ⟨next, ha, -⟩ | ⟨cause, ha⟩
  · rw [attempt_of_ok ha, ha]
  · rw [attempt_of_error ha, ha]

theorem edit_singleton (store : Store) (command : Command) :
    store.edit [command] = store.attempt command :=
  store.edit_cons command []

theorem edit_append (store : Store) (first second : List Command) :
    store.edit (first ++ second) = (store.edit first).edit second := by
  induction first generalizing store with
  | nil => rfl
  | cons command rest ih => rw [List.cons_append, edit_cons, edit_cons, ih]

theorem refusals_of_ok {store next : Store} {command : Command}
    (h : command.apply store = .ok () next) : store.refusals [command] = 0 := by
  rw [refusals, h]
  rfl

theorem refusals_of_error {store left : Store} {command : Command} {cause : StoreError}
    (h : command.apply store = .error cause left) : store.refusals [command] = 1 := by
  rw [refusals, h]
  rfl

theorem refusals_cons (store : Store) (command : Command) (rest : List Command) :
    store.refusals (command :: rest) =
      store.refusals [command] + (store.attempt command).refusals rest := by
  rcases command.apply_cases store with ⟨next, ha, -⟩ | ⟨cause, ha⟩
  · rw [refusals_of_ok ha, attempt_of_ok ha, Nat.zero_add, refusals, ha]
  · rw [refusals_of_error ha, attempt_of_error ha, Nat.add_comm, refusals, ha]

theorem refusals_append (store : Store) (first second : List Command) :
    store.refusals (first ++ second) =
      store.refusals first + (store.edit first).refusals second := by
  induction first generalizing store with
  | nil => exact (Nat.zero_add _).symm
  | cons command rest ih =>
    rw [List.cons_append, refusals_cons, ih, edit_cons, store.refusals_cons command rest,
      Nat.add_assoc]

theorem Reachable.edit {store : Store} (h : store.Reachable) (commands : List Command) :
    (store.edit commands).Reachable := by
  induction commands generalizing store with
  | nil => exact h
  | cons command rest ih =>
    rw [edit_cons]
    exact ih (.attempted command h)

/-! ### The tree decides -/

variable {store other : Store}

/-- Stores with the same tree take a command alike. -/
theorem attempt_of_root_eq (h : store.root = other.root) (command : Command) :
    (store.attempt command).root = (other.attempt command).root ∧
      store.refusals [command] = other.refusals [command] := by
  rcases command.apply_cases store with ⟨next, ha, hs⟩ | ⟨cause, ha⟩
  · obtain ⟨next', hs', hr⟩ := hs.of_root_eq h
    rw [attempt_of_ok ha, refusals_of_ok ha, attempt_of_ok hs'.apply_eq,
      refusals_of_ok hs'.apply_eq]
    exact ⟨hr, rfl⟩
  · rcases command.apply_cases other with ⟨next', -, hs'⟩ | ⟨cause', ha'⟩
    · obtain ⟨next, hs, -⟩ := hs'.of_root_eq h.symm
      cases ha.symm.trans hs.apply_eq
    · rw [attempt_of_error ha, refusals_of_error ha, attempt_of_error ha', refusals_of_error ha']
      exact ⟨h, rfl⟩

theorem edit_of_root_eq (h : store.root = other.root) (commands : List Command) :
    (store.edit commands).root = (other.edit commands).root := by
  induction commands generalizing store other with
  | nil => exact h
  | cons command rest ih =>
    rw [edit_cons, edit_cons]
    exact ih (attempt_of_root_eq h command).1

theorem refusals_of_root_eq (h : store.root = other.root) (commands : List Command) :
    store.refusals commands = other.refusals commands := by
  induction commands generalizing store other with
  | nil => rfl
  | cons command rest ih =>
    obtain ⟨hroot, hfirst⟩ := attempt_of_root_eq h command
    rw [refusals_cons, other.refusals_cons, hfirst, ih hroot]

/-- Commands that run through on a store are none of them refused. -/
theorem RunsTo.edit {commands : List Command} {root : Node} (h : store.RunsTo commands root) :
    (store.edit commands).root = root ∧ store.refusals commands = 0 := by
  obtain ⟨last, hlast, rfl⟩ := runsTo_iff.mp h
  clear h
  induction hlast with
  | nil store => exact ⟨rfl, rfl⟩
  | cons ha _ ih =>
    rw [Store.edit, refusals, ha]
    exact ih

end LivePreview.Store
