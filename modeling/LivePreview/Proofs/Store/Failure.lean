import LivePreview.Proofs.Store.Step

/-!
# Commands that fail

A command that fails leaves the store as it was. Nothing takes a change back, so this rests on the
order of what an operation does: up to its last test it only asks, and what it does to the store
behind that cannot fail.
-/
namespace LivePreview

namespace StoreM

variable {α β : Type} {operation : StoreM α} {next : α → StoreM β}

/-- The store stays as it is, with an answer or without one. -/
def ReadOnly (operation : StoreM α) : Prop :=
  ∀ store, (∃ a, operation store = .ok a store) ∨ ∃ cause, operation store = .error cause store

def NeverFails (operation : StoreM α) : Prop :=
  ∀ store, ∃ a left, operation store = .ok a left

/-- A failure leaves the store as it was. -/
def Atomic (operation : StoreM α) : Prop :=
  ∀ store cause left, operation store = .error cause left → left = store

theorem readOnly_ask (query : Store → Except StoreError α) : (Store.ask query).ReadOnly := by
  intro store
  cases hq : query store with
  | ok a => exact .inl ⟨a, Store.ask_of_ok hq⟩
  | error cause => exact .inr ⟨cause, Store.ask_of_error hq⟩

theorem readOnly_get : (get : StoreM Store).ReadOnly := fun store => .inl ⟨store, rfl⟩

theorem neverFails_pure (a : α) : (pure a : StoreM α).NeverFails := fun store => ⟨a, store, rfl⟩

theorem neverFails_modify (change : Store → Store) : (modify change : StoreM Unit).NeverFails :=
  fun store => ⟨(), change store, rfl⟩

theorem NeverFails.bind (h : operation.NeverFails) (hn : ∀ a, (next a).NeverFails) :
    (operation >>= next).NeverFails := by
  intro store
  obtain ⟨a, left, ho⟩ := h store
  rw [Store.bind_of_ok ho]
  exact hn a left

theorem NeverFails.atomic (h : operation.NeverFails) : operation.Atomic := by
  intro store cause left he
  obtain ⟨a, left', ho⟩ := h store
  rw [ho] at he
  cases he

theorem atomic_throw (cause : StoreError) : (throw cause : StoreM α).Atomic := by
  intro store cause' left he
  cases he
  rfl

/-- Whatever only asks may stand in front. -/
theorem ReadOnly.bind_atomic (h : operation.ReadOnly) (hn : ∀ a, (next a).Atomic) :
    (operation >>= next).Atomic := by
  intro store cause left he
  rcases h store with ⟨a, ho⟩ | ⟨cause', ho⟩
  · rw [Store.bind_of_ok ho] at he
    exact hn a store cause left he
  · rw [Store.bind_of_error ho] at he
    cases he
    rfl

end StoreM

namespace Store

open StoreM

/-! ### Changes -/

theorem neverFails_notify (change : Change) : (notify change).NeverFails := neverFails_modify _

theorem neverFails_overwrite (path : Path) (content : String) :
    (overwrite path content).NeverFails :=
  (neverFails_modify _).bind fun _ => neverFails_notify _

theorem neverFails_detach (path : Path) : (detach path).NeverFails :=
  fun store => ⟨_, store.remove path, rfl⟩

theorem neverFails_move (source target : Path) : (move source target).NeverFails := by
  refine (neverFails_detach source).bind fun node? => ?_
  cases node? with
  | none => exact neverFails_pure ()
  | some node => exact neverFails_modify _

/-! ### Operations -/

theorem atomic_createFile (raw content : String) : (createFile raw content).Atomic := by
  apply (readOnly_ask _).bind_atomic
  intro path
  apply readOnly_get.bind_atomic
  intro store
  split
  · exact atomic_throw _
  · exact (neverFails_overwrite path content).atomic
  · apply (readOnly_ask _).bind_atomic
    intro _
    exact ((neverFails_modify _).bind fun _ => neverFails_notify _).atomic

theorem atomic_updateFile (raw content : String) : (updateFile raw content).Atomic := by
  apply (readOnly_ask _).bind_atomic
  intro path
  apply (readOnly_ask _).bind_atomic
  intro _
  exact (neverFails_overwrite path content).atomic

theorem atomic_createDirectory (raw : String) : (createDirectory raw).Atomic := by
  apply (readOnly_ask _).bind_atomic
  intro path
  apply readOnly_get.bind_atomic
  intro store
  split
  · exact (neverFails_pure ()).atomic
  · exact atomic_throw _
  · apply (readOnly_ask _).bind_atomic
    intro _
    exact ((neverFails_modify _).bind fun _ => neverFails_notify _).atomic

/-- The file is looked up once more before it is written. That it is still there does not matter
here: up to then the operation has only asked. -/
theorem atomic_replaceInFile (raw old new : String) : (replaceInFile raw old new).Atomic := by
  apply (readOnly_ask _).bind_atomic
  intro path
  apply (readOnly_ask _).bind_atomic
  intro content
  apply (readOnly_ask _).bind_atomic
  intro _
  split
  · exact atomic_throw _
  · apply (readOnly_ask _).bind_atomic
    intro _
    exact (neverFails_overwrite path _).atomic
  · exact atomic_throw _

theorem atomic_insertInFile (raw : String) (line : Nat) (text : String) :
    (insertInFile raw line text).Atomic := by
  apply (readOnly_ask _).bind_atomic
  intro path
  apply (readOnly_ask _).bind_atomic
  intro content
  apply (readOnly_ask _).bind_atomic
  intro _
  apply (readOnly_ask _).bind_atomic
  intro _
  exact (neverFails_overwrite path _).atomic

theorem atomic_deleteFile (raw : String) : (deleteFile raw).Atomic := by
  apply (readOnly_ask _).bind_atomic
  intro path
  apply (readOnly_ask _).bind_atomic
  intro _
  exact ((neverFails_detach path).bind fun _ => neverFails_notify _).atomic

theorem atomic_deleteDirectory (raw : String) : (deleteDirectory raw).Atomic := by
  apply (readOnly_ask _).bind_atomic
  intro path
  apply (readOnly_ask _).bind_atomic
  intro _
  apply readOnly_get.bind_atomic
  intro store
  split
  · exact atomic_throw _
  · exact atomic_throw _
  · exact ((neverFails_detach path).bind fun _ => neverFails_notify _).atomic

theorem atomic_rename (rawSource rawTarget : String) : (rename rawSource rawTarget).Atomic := by
  apply (readOnly_ask _).bind_atomic
  intro source
  apply (readOnly_ask _).bind_atomic
  intro target
  apply (readOnly_ask _).bind_atomic
  intro _
  apply (readOnly_ask _).bind_atomic
  intro _
  split
  · exact (neverFails_pure ()).atomic
  · apply (readOnly_ask _).bind_atomic
    intro _
    apply (readOnly_ask _).bind_atomic
    intro _
    apply (readOnly_ask _).bind_atomic
    intro _
    -- Nothing is tested between the two halves of the move.
    exact ((neverFails_move source target).bind fun _ => neverFails_notify _).atomic

end Store

namespace Command

theorem atomic_apply (command : Command) : command.apply.Atomic := by
  cases command with
  | createFile raw content => exact Store.atomic_createFile raw content
  | updateFile raw content => exact Store.atomic_updateFile raw content
  | createDirectory raw => exact Store.atomic_createDirectory raw
  | deleteFile raw => exact Store.atomic_deleteFile raw
  | deleteDirectory raw => exact Store.atomic_deleteDirectory raw
  | rename rawSource rawTarget => exact Store.atomic_rename rawSource rawTarget
  | replaceInFile raw old new => exact Store.atomic_replaceInFile raw old new
  | insertInFile raw line text => exact Store.atomic_insertInFile raw line.toNat text

/-- A command makes a step, or it fails and leaves the store as it was. -/
theorem apply_cases (command : Command) (store : Store) :
    (∃ next, command.apply store = .ok () next ∧ store.Step command next) ∨
      ∃ cause, command.apply store = .error cause store := by
  cases ha : command.apply store with
  | ok _ next => exact .inl ⟨next, rfl, step_of_apply ha⟩
  | error cause left =>
    obtain rfl := command.atomic_apply store cause left ha
    exact .inr ⟨cause, rfl⟩

end Command

end LivePreview
