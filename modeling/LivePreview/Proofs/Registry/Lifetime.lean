import LivePreview.Proofs.Registry.Generation

/-!
# The life of handles

A handle is numbered when it is made and no number is given twice. So a handle that was released
stays released, unless a path still has it: to register that path again would revive it. One call
leaves paths with handles that it has released: to install a generation while modules are registered
in another one. `serving_call_iff` says that no other call does.
-/
namespace LivePreview.Registry

/-! ### Calls -/

/-- What can be asked of a registry. -/
inductive Call where
  | start
  | register (path : Path) (code : String)
  | install (generation : Nat)
  | discard (generation : Nat)
deriving DecidableEq, Repr

/-- The registry after a call. -/
def call (registry : Registry) : Call → Registry
  | .start => registry.startGeneration
  | .register path code => (registry.register path code).1
  | .install generation => registry.install generation
  | .discard generation => registry.discard generation

/-- The registries that calls lead to. -/
inductive Reachable : Registry → Prop
  | new : Reachable {}
  | called {registry : Registry} (h : Reachable registry) (c : Call) : Reachable (registry.call c)

theorem Reachable.run {registry : Registry} (h : Reachable registry) (calls : List Call) :
    Reachable (calls.foldl call registry) := by
  induction calls generalizing registry with
  | nil => exact h
  | cons c calls ih => exact ih (h.called c)

/-- An install is of the current generation, unless nothing is registered in that. -/
def Call.Orderly (registry : Registry) : Call → Prop
  | .install generation => generation = registry.generation ∨ registry.current = []
  | _ => True

instance (registry : Registry) (c : Call) : Decidable (c.Orderly registry) := by
  unfold Call.Orderly; split <;> infer_instance

/-- The registries whose calls were orderly since their generation was started. -/
inductive Orderly : Registry → Prop
  | new : Orderly {}
  | started {registry : Registry} (h : Reachable registry) : Orderly registry.startGeneration
  | called {registry : Registry} {c : Call} (h : Orderly registry) (hc : c.Orderly registry) :
      Orderly (registry.call c)

theorem Orderly.reachable {registry : Registry} (h : Orderly registry) : Reachable registry := by
  induction h with
  | new => exact .new
  | started h => exact .called h .start
  | called _ _ ih => exact .called ih _

variable {registry : Registry} {handle : Handle}

/-! ### What a call does -/

/-- The handle of a path that is registered is the one that it has, or the next one. -/
theorem register_cases (registry : Registry) (path : Path) (code : String) :
    ((path, (registry.register path code).2) ∈ registry.current ∧
      (registry.register path code).1.current = registry.current) ∨
    ((registry.register path code).2 = ⟨registry.generation, registry.nextSequence⟩ ∧
      (registry.register path code).1.nextSequence = registry.nextSequence + 1 ∧
      (registry.register path code).1.current =
        registry.current ++ [(path, (registry.register path code).2)]) := by
  rw [register]
  cases hh : registry.handle? path with
  | some handle => exact .inl ⟨Table.mem_of_get?_eq_some hh, rfl⟩
  | none => exact .inr ⟨rfl, rfl, rfl⟩

theorem mem_current_register {entry : Path × Handle} {path : Path} {code : String}
    (hm : entry ∈ (registry.register path code).1.current) :
    entry ∈ registry.current ∨ entry = (path, (registry.register path code).2) := by
  rcases register_cases registry path code with ⟨-, hc⟩ | ⟨-, -, hc⟩
  · exact .inl (hc ▸ hm)
  · rw [hc, List.mem_append, List.mem_singleton] at hm
    exact hm

theorem nextSequence_le_register (registry : Registry) (path : Path) (code : String) :
    registry.nextSequence ≤ (registry.register path code).1.nextSequence := by
  rw [nextSequence_register]
  split
  · exact Nat.le_refl _
  · exact Nat.le_succ _

/-- To discard a generation takes its handles from paths. -/
theorem mem_current_discard (ho : registry.Own) {generation : Nat}
    (hi : registry.installed ≠ some generation) {entry : Path × Handle}
    (hm : entry ∈ (registry.discard generation).current) :
    entry ∈ registry.current ∧ entry.2.generation ≠ generation := by
  rw [current_discard hi] at hm
  split at hm
  · cases hm
  · rename_i hne
    exact ⟨hm, fun hg => hne ((ho entry hm).symm.trans hg)⟩

/-- Some handles were released, and paths may have lost theirs. -/
structure Pruned (old registry : Registry) : Prop where
  generation : registry.generation = old.generation
  nextSequence : registry.nextSequence = old.nextSequence
  current : ∀ entry ∈ registry.current, entry ∈ old.current
  fetch? : ∀ handle, registry.fetch? handle = none ∨ registry.fetch? handle = old.fetch? handle

theorem pruned_install (registry : Registry) (generation : Nat) :
    Pruned registry (registry.install generation) where
  generation := rfl
  nextSequence := rfl
  current := fun _ hm => hm
  fetch? := fun handle => by
    rw [fetch?_install]
    split
    · exact .inr rfl
    · exact .inl rfl

theorem pruned_discard (registry : Registry) (generation : Nat) :
    Pruned registry (registry.discard generation) := by
  obtain ⟨hgeneration, hnext, -⟩ := frame_discard registry generation
  refine ⟨hgeneration, hnext, fun entry hm => ?_, fun handle => ?_⟩
  · by_cases hi : registry.installed = some generation
    · rwa [discard, if_pos hi] at hm
    · rw [current_discard hi] at hm
      split at hm
      · cases hm
      · exact hm
  · by_cases hi : registry.installed = some generation
    · rw [discard, if_pos hi]
      exact .inr rfl
    · rw [fetch?_discard hi]
      split
      · exact .inl rfl
      · exact .inr rfl

/-! ### Numbers -/

/-- The handle is of an earlier generation, or its number was given in the current one. -/
def Issued (registry : Registry) (handle : Handle) : Prop :=
  handle.generation < registry.generation ∨
    handle.generation = registry.generation ∧ handle.sequence < registry.nextSequence

namespace Issued

theorem ne_next (h : registry.Issued handle) :
    handle ≠ ⟨registry.generation, registry.nextSequence⟩ := by
  rintro rfl
  rcases h with h | ⟨-, h⟩ <;> exact Nat.lt_irrefl _ h

theorem pruned {old : Registry} (h : old.Issued handle) (hp : Pruned old registry) :
    registry.Issued handle := by
  rw [Issued, hp.generation, hp.nextSequence]
  exact h

theorem call (h : registry.Issued handle) (c : Call) : (registry.call c).Issued handle := by
  cases c with
  | start =>
    left
    show handle.generation < registry.generation + 1
    rcases h with h | ⟨h, -⟩ <;> omega
  | register path code =>
    have hle := nextSequence_le_register registry path code
    show (registry.register path code).1.Issued handle
    rw [Issued, generation_register]
    exact h.imp_right fun ⟨hg, hs⟩ => ⟨hg, Nat.lt_of_lt_of_le hs hle⟩
  | install generation => exact h.pruned (pruned_install registry generation)
  | discard generation => exact h.pruned (pruned_discard registry generation)

end Issued

/-- What a registered path gets was issued. -/
theorem issued_register (hc : ∀ entry ∈ registry.current, registry.Issued entry.2) (path : Path)
    (code : String) :
    (registry.register path code).1.Issued (registry.register path code).2 := by
  rcases register_cases registry path code with ⟨hm, -⟩ | ⟨hh, hn, -⟩
  · exact (hc _ hm).call (.register path code)
  · right
    rw [hn, generation_register, hh]
    exact ⟨rfl, Nat.lt_succ_self _⟩

/-- Paths have handles of the current generation, and every handle in use was issued. -/
structure Numbered (registry : Registry) : Prop where
  own : registry.Own
  current : ∀ entry ∈ registry.current, registry.Issued entry.2
  live : ∀ handle, registry.fetch? handle ≠ none → registry.Issued handle

namespace Numbered

theorem pruned {old : Registry} (h : old.Numbered) (hp : Pruned old registry) :
    registry.Numbered where
  own := fun entry hm => (h.own entry (hp.current entry hm)).trans hp.generation.symm
  current := fun entry hm => (h.current entry (hp.current entry hm)).pruned hp
  live := fun handle hl => by
    rcases hp.fetch? handle with hn | he
    · exact absurd hn hl
    · exact (h.live handle (he ▸ hl)).pruned hp

theorem register (h : registry.Numbered) (path : Path) (code : String) :
    (registry.register path code).1.Numbered where
  own := own_register h.own path code
  current := fun entry hm => by
    rcases mem_current_register hm with hm | rfl
    · exact (h.current entry hm).call (.register path code)
    · exact issued_register h.current path code
  live := fun handle hl => by
    rw [fetch?_register] at hl
    split at hl
    · rename_i he
      exact he ▸ issued_register h.current path code
    · exact (h.live handle hl).call (.register path code)

theorem call (h : registry.Numbered) (c : Call) : (registry.call c).Numbered := by
  cases c with
  | start =>
    refine ⟨fun _ hm => (nomatch hm), fun _ hm => (nomatch hm), fun handle hl => ?_⟩
    exact (h.live handle hl).call .start
  | register path code => exact h.register path code
  | install generation => exact h.pruned (pruned_install registry generation)
  | discard generation => exact h.pruned (pruned_discard registry generation)

end Numbered

theorem Reachable.numbered (h : Reachable registry) : registry.Numbered := by
  induction h with
  | new => exact ⟨fun _ hm => (nomatch hm), fun _ hm => (nomatch hm), fun _ hl => absurd rfl hl⟩
  | called _ c ih => exact ih.call c

/-! ### Paths and their code -/

/-- Every path of the current generation has its code. -/
def Serving (registry : Registry) : Prop :=
  ∀ entry ∈ registry.current, registry.fetch? entry.2 ≠ none

theorem Serving.register (h : registry.Serving) (path : Path) (code : String) :
    (registry.register path code).1.Serving := by
  intro entry hm
  rw [fetch?_register]
  split
  · exact Option.some_ne_none code
  · rename_i hne
    refine h entry ((mem_current_register hm).resolve_right fun he => ?_)
    exact hne (congrArg Prod.snd he)

theorem Serving.discard (h : registry.Serving) (ho : registry.Own) (generation : Nat) :
    (registry.discard generation).Serving := by
  by_cases hi : registry.installed = some generation
  · rw [Registry.discard, if_pos hi]
    exact h
  · intro entry hm
    obtain ⟨hm, hne⟩ := mem_current_discard ho hi hm
    rw [fetch?_discard hi, if_neg hne]
    exact h entry hm

/-- To install a generation parts the paths of any other from their code. -/
theorem serving_install_iff (h : registry.Serving) (ho : registry.Own) (generation : Nat) :
    (registry.install generation).Serving ↔
      generation = registry.generation ∨ registry.current = [] := by
  constructor
  · intro hs
    cases hc : registry.current with
    | nil => exact .inr rfl
    | cons entry rest =>
      have hm : entry ∈ registry.current := hc ▸ List.mem_cons_self
      have hfetch := hs entry hm
      rw [fetch?_install] at hfetch
      split at hfetch
      · rename_i hg
        exact .inl (hg.symm.trans (ho entry hm))
      · exact absurd rfl hfetch
  · rintro (rfl | he) entry hm
    · rw [fetch?_install, if_pos (ho entry hm)]
      exact h entry hm
    · exact absurd (he ▸ hm : entry ∈ []) List.not_mem_nil

theorem serving_call_iff (h : registry.Serving) (ho : registry.Own) (c : Call) :
    (registry.call c).Serving ↔ c.Orderly registry := by
  cases c with
  | start => exact iff_of_true (fun _ hm => nomatch hm) trivial
  | register path code => exact iff_of_true (h.register path code) trivial
  | install generation => exact serving_install_iff h ho generation
  | discard generation => exact iff_of_true (h.discard ho generation) trivial

theorem Orderly.serving (h : Orderly registry) : registry.Serving := by
  induction h with
  | new => exact fun _ hm => nomatch hm
  | started => exact fun _ hm => nomatch hm
  | called h hc ih => exact (serving_call_iff ih h.reachable.numbered.own _).mpr hc

theorem Serving.fetch?_handle? (h : registry.Serving) {path : Path}
    (hh : registry.handle? path = some handle) : ∃ code, registry.fetch? handle = some code :=
  Option.ne_none_iff_exists'.mp (h _ (Table.mem_of_get?_eq_some hh))

/-! ### Released handles -/

theorem Pruned.fetch?_eq_none {old : Registry} (h : Pruned old registry)
    (hr : old.fetch? handle = none) : registry.fetch? handle = none :=
  (h.fetch? handle).elim id fun he => he.trans hr

/-- The handle was issued, and no path has it. -/
structure Retired (registry : Registry) (handle : Handle) : Prop where
  issued : registry.Issued handle
  unheld : ∀ entry ∈ registry.current, entry.2 ≠ handle

namespace Retired

theorem pruned {old : Registry} (h : old.Retired handle) (hp : Pruned old registry) :
    registry.Retired handle where
  issued := h.issued.pruned hp
  unheld := fun entry hm => h.unheld entry (hp.current entry hm)

/-- A path that is registered has or gets another handle. -/
theorem ne_register (h : registry.Retired handle) (path : Path) (code : String) :
    (registry.register path code).2 ≠ handle := by
  rcases register_cases registry path code with ⟨hm, -⟩ | ⟨hh, -⟩
  · exact h.unheld _ hm
  · exact hh ▸ h.issued.ne_next.symm

theorem call (h : registry.Retired handle) (c : Call) : (registry.call c).Retired handle := by
  cases c with
  | start => exact ⟨h.issued.call .start, fun _ hm => nomatch hm⟩
  | register path code =>
    refine ⟨h.issued.call (.register path code), fun entry hm => ?_⟩
    rcases mem_current_register hm with hm | rfl
    · exact h.unheld entry hm
    · exact h.ne_register path code
  | install generation => exact h.pruned (pruned_install registry generation)
  | discard generation => exact h.pruned (pruned_discard registry generation)

end Retired

/-- The handle was released, and no path has it. -/
structure Spent (registry : Registry) (handle : Handle) : Prop where
  issued : registry.Issued handle
  released : registry.fetch? handle = none
  unheld : ∀ entry ∈ registry.current, entry.2 ≠ handle

namespace Spent

theorem retired (h : registry.Spent handle) : registry.Retired handle := ⟨h.issued, h.unheld⟩

theorem call (h : registry.Spent handle) (c : Call) : (registry.call c).Spent handle := by
  have hretired := h.retired.call c
  refine ⟨hretired.issued, ?_, hretired.unheld⟩
  cases c with
  | start => exact h.released
  | register path code =>
    show (registry.register path code).1.fetch? handle = none
    rw [fetch?_register, if_neg (h.retired.ne_register path code).symm]
    exact h.released
  | install generation => exact (pruned_install registry generation).fetch?_eq_none h.released
  | discard generation => exact (pruned_discard registry generation).fetch?_eq_none h.released

/-- No run of calls brings the handle back. -/
theorem run (h : registry.Spent handle) (calls : List Call) :
    (calls.foldl Registry.call registry).Spent handle := by
  induction calls generalizing registry with
  | nil => exact h
  | cons c calls ih => exact ih (h.call c)

end Spent

/-- An orderly call takes from paths the handles that it releases. -/
theorem Numbered.spent (h : registry.Numbered) {c : Call} (hc : c.Orderly registry)
    (hbefore : registry.fetch? handle ≠ none) (hafter : (registry.call c).fetch? handle = none) :
    (registry.call c).Spent handle := by
  refine ⟨(h.live handle hbefore).call c, hafter, ?_⟩
  cases c with
  | start => exact fun _ hm => nomatch hm
  | register path code =>
    have hfetch := (fetch?_register registry path code handle).symm.trans hafter
    split at hfetch
    · cases hfetch
    · exact absurd hfetch hbefore
  | install generation =>
    have hfetch := (fetch?_install registry generation handle).symm.trans hafter
    split at hfetch
    · exact absurd hfetch hbefore
    · rename_i hne
      rintro entry hm rfl
      rcases hc with rfl | he
      · exact hne (h.own entry hm)
      · exact absurd (he ▸ hm : entry ∈ []) List.not_mem_nil
  | discard generation =>
    by_cases hi : registry.installed = some generation
    · have he : registry.discard generation = registry := if_pos hi
      exact absurd ((congrArg (fetch? · handle) he).symm.trans hafter) hbefore
    · have hfetch := (fetch?_discard hi handle).symm.trans hafter
      split at hfetch
      · rename_i hg
        rintro entry hm rfl
        exact (mem_current_discard h.own hi hm).2 hg
      · exact absurd hfetch hbefore

/-- A call that is not orderly leaves a path with a handle that it has released, and to register
the path again revives the handle. -/
theorem exists_revived (hs : registry.Serving) (ho : registry.Own) {c : Call}
    (hc : ¬c.Orderly registry) :
    ∃ path handle, (registry.call c).handle? path = some handle ∧
      registry.fetch? handle ≠ none ∧ (registry.call c).fetch? handle = none ∧
      ∀ code, ((registry.call c).call (.register path code)).fetch? handle = some code := by
  cases c with
  | start | register | discard => exact absurd trivial hc
  | install generation =>
    obtain ⟨hne, hcurrent⟩ := not_or.mp hc
    obtain ⟨⟨path, handle⟩, rest, he⟩ := List.exists_cons_of_ne_nil hcurrent
    have hm : (path, handle) ∈ registry.current := he ▸ List.mem_cons_self
    have hh : (registry.install generation).handle? path = some handle := by
      show Table.get? path registry.current = some handle
      rw [he, Table.get?, if_pos rfl]
    have hg : handle.generation ≠ generation := fun hg => hne (hg.symm.trans (ho _ hm))
    refine ⟨path, handle, hh, hs _ hm, ?_, fun code => ?_⟩
    · show (registry.install generation).fetch? handle = none
      rw [fetch?_install, if_neg hg]
    · show ((registry.install generation).register path code).1.fetch? handle = some code
      have hsame : ((registry.install generation).register path code).2 = handle := by
        rw [register, hh]
      rw [fetch?_register, if_pos hsame.symm]

/-- While calls are orderly, a path that has a handle has code behind it, an import map names live
handles only, and a handle that is released never comes back, whatever is asked afterwards. The
first call that is not orderly ends that. -/
theorem Orderly.handles_consistent (h : Orderly registry) :
    (∀ path handle, registry.handle? path = some handle →
      ∃ code, registry.fetch? handle = some code) ∧
    (∀ config entry packages, ∀ handle ∈ (registry.importMap config entry packages).handles,
      ∃ code, registry.fetch? handle = some code) ∧
    (∀ (c : Call) handle, c.Orderly registry → registry.fetch? handle ≠ none →
      (registry.call c).fetch? handle = none →
      ∀ calls : List Call, (calls.foldl call (registry.call c)).fetch? handle = none) ∧
    ∀ c : Call, ¬c.Orderly registry →
      ∃ path handle, (registry.call c).handle? path = some handle ∧
        registry.fetch? handle ≠ none ∧ (registry.call c).fetch? handle = none ∧
        ∀ code, ((registry.call c).call (.register path code)).fetch? handle = some code := by
  have hserving := h.serving
  have hnumbered := h.reachable.numbered
  refine ⟨fun path handle hh => hserving.fetch?_handle? hh, ?_, ?_, ?_⟩
  · intro config entry packages handle hm
    obtain ⟨path, hcurrent⟩ := exists_of_mem_handles hm
    exact Option.ne_none_iff_exists'.mp (hserving _ hcurrent)
  · intro c handle hc hbefore hafter calls
    exact ((hnumbered.spent hc hbefore hafter).run calls).released
  · intro c hc
    exact exists_revived hserving hnumbered.own hc

/-- A second build, while the first one is installed. -/
def rebuilding : Registry :=
  [.start, .register ⟨["App.jsx"]⟩ "a();", .install 1, .start,
    .register ⟨["App.jsx"]⟩ "b();"].foldl call {}

theorem orderly_rebuilding : Orderly rebuilding :=
  .called (c := .register ⟨["App.jsx"]⟩ "b();")
    (.started (Reachable.new.run [.start, .register ⟨["App.jsx"]⟩ "a();", .install 1])) trivial

/-- To install the second build releases the handle of the first one for good, and the import map
of the second names its own. -/
theorem handles_consistent_after_rebuild :
    Orderly rebuilding ∧ (Call.install 2).Orderly rebuilding ∧
      rebuilding.fetch? ⟨1, 0⟩ ≠ none ∧ (rebuilding.call (.install 2)).fetch? ⟨1, 0⟩ = none ∧
      (∀ calls : List Call,
        (calls.foldl call (rebuilding.call (.install 2))).fetch? ⟨1, 0⟩ = none) ∧
      (rebuilding.importMap {} ⟨2, 0⟩ []).handles = [⟨2, 0⟩] ∧
      ∃ code, rebuilding.fetch? ⟨2, 0⟩ = some code := by
  have hinstall : (Call.install 2).Orderly rebuilding := by decide
  have hbefore : rebuilding.fetch? ⟨1, 0⟩ ≠ none := by decide
  have hafter : (rebuilding.call (.install 2)).fetch? ⟨1, 0⟩ = none := by decide
  have hmap : (rebuilding.importMap {} ⟨2, 0⟩ []).handles = [⟨2, 0⟩] := by decide
  obtain ⟨-, hlive, hreleased, -⟩ := orderly_rebuilding.handles_consistent
  exact ⟨orderly_rebuilding, hinstall, hbefore, hafter,
    hreleased (.install 2) ⟨1, 0⟩ hinstall hbefore hafter, hmap,
    hlive {} ⟨2, 0⟩ [] ⟨2, 0⟩ (hmap ▸ List.mem_singleton_self _)⟩

/-- A generation that was never started is installed: the handle of the path is released, and it
fetches again when the path is registered again. -/
theorem handle_revived_after_foreign_install :
    let registered := [Call.start, .register ⟨["App.jsx"]⟩ "a();"].foldl call {}
    let installed := registered.call (.install 7)
    let again := installed.call (.register ⟨["App.jsx"]⟩ "b();")
    Reachable again ∧ registered.fetch? ⟨1, 0⟩ = some "a();" ∧
      installed.handle? ⟨["App.jsx"]⟩ = some ⟨1, 0⟩ ∧ installed.fetch? ⟨1, 0⟩ = none ∧
      again.fetch? ⟨1, 0⟩ = some "b();" :=
  ⟨Reachable.new.run [.start, .register ⟨["App.jsx"]⟩ "a();", .install 7,
    .register ⟨["App.jsx"]⟩ "b();"], by decide, by decide, by decide, by decide⟩

end LivePreview.Registry
