import LivePreview.Proofs.Registry

/-!
# A generation beside the live one

While modules are registered in a new generation, the handles of earlier ones fetch what they
fetched before. Then either the new generation is installed and nothing else is live, or it is
discarded and all is as it was.
-/
namespace LivePreview.Registry

/-- Only generations that were started have live handles. -/
def Bounded (registry : Registry) : Prop :=
  ∀ handle, registry.fetch? handle ≠ none → handle.generation ≤ registry.generation

theorem Bounded.fetch?_eq_none {registry : Registry} (h : registry.Bounded) {handle : Handle}
    (hg : registry.generation < handle.generation) : registry.fetch? handle = none := by
  cases hf : registry.fetch? handle with
  | none => rfl
  | some code =>
    have hle := h handle (by simp [hf])
    omega

/-- Between builds: only started generations have live handles, and one of them may be installed. -/
structure Resting (registry : Registry) : Prop where
  bounded : registry.Bounded
  installed : registry.InstalledBound

/-- The registry after `served` was registered, module by module, in the generation after `old`. -/
structure Building (old : Registry) (served : List (Path × String)) (registry : Registry) :
    Prop where
  generation : registry.generation = old.generation + 1
  installed : registry.installed = old.installed
  nextSequence : registry.nextSequence = served.length
  current : registry.current = served.mapIdx fun i entry => (entry.1, ⟨old.generation + 1, i⟩)
  fetch? : ∀ handle, registry.fetch? handle =
    if handle.generation = old.generation + 1 then served[handle.sequence]?.map Prod.snd
    else old.fetch? handle

namespace Building

variable {old registry : Registry} {served : List (Path × String)}

theorem startGeneration (hb : old.Bounded) : Building old [] old.startGeneration where
  generation := rfl
  installed := rfl
  nextSequence := rfl
  current := rfl
  fetch? := by
    intro handle
    show old.fetch? handle = _
    split
    · rename_i hg
      exact hb.fetch?_eq_none (by omega)
    · rfl

theorem paths (h : Building old served registry) :
    registry.current.map Prod.fst = served.map Prod.fst := by
  rw [h.current]
  apply List.ext_getElem <;> simp

/-- A module that has no handle yet gets the next one. -/
theorem register (h : Building old served registry) {path : Path} (hp : path ∉ served.map Prod.fst)
    (code : String) :
    Building old (served ++ [(path, code)]) (registry.register path code).1 := by
  have hnone : registry.handle? path = none := by
    cases hh : registry.handle? path with
    | none => rfl
    | some handle =>
      have hm : (path, handle) ∈ registry.current := Table.mem_of_get?_eq_some hh
      exact absurd (h.paths ▸ List.mem_map_of_mem (f := Prod.fst) hm) hp
  rw [Registry.register, hnone]
  dsimp only
  refine ⟨h.generation, h.installed, ?_, ?_, fun other => ?_⟩
  · show registry.nextSequence + 1 = _
    rw [h.nextSequence, List.length_append, List.length_singleton]
  · show registry.current ++ _ = _
    rw [h.current, h.generation, h.nextSequence, List.mapIdx_append]
    simp
  · rw [fetch?_setCode, h.generation, h.nextSequence]
    by_cases he : other = ⟨old.generation + 1, served.length⟩
    · subst he
      simp
    · rw [if_neg he]
      show registry.fetch? other = _
      rw [h.fetch? other]
      by_cases hg : other.generation = old.generation + 1
      · have hs : other.sequence ≠ served.length := fun hs => he (by
          obtain ⟨generation, sequence⟩ := other
          cases hg
          cases hs
          rfl)
        rw [if_pos hg, if_pos hg]
        by_cases hlt : other.sequence < served.length
        · rw [List.getElem?_append_left hlt]
        · rw [List.getElem?_eq_none (by omega), List.getElem?_eq_none (by simp; omega)]
      · rw [if_neg hg, if_neg hg]

/-- Every module has the handle of its place, and every handle of the generation its module. -/
theorem mem_current_iff (h : Building old served registry) {path : Path} {handle : Handle} :
    (path, handle) ∈ registry.current ↔
      handle.generation = old.generation + 1 ∧
        ∃ code, served[handle.sequence]? = some (path, code) := by
  rw [h.current, List.mem_iff_getElem?]
  simp only [List.getElem?_mapIdx, Option.map_eq_some_iff, Prod.mk.injEq]
  constructor
  · rintro ⟨i, ⟨path, code⟩, hi, rfl, rfl⟩
    exact ⟨rfl, code, hi⟩
  · rintro ⟨hg, code, hs⟩
    obtain ⟨generation, sequence⟩ := handle
    cases hg
    exact ⟨sequence, (path, code), hs, rfl, rfl⟩

/-- To install the generation makes its handles the live ones. -/
theorem fetch?_install (h : Building old served registry) (handle : Handle) :
    (registry.install registry.generation).fetch? handle =
      if handle.generation = old.generation + 1 then served[handle.sequence]?.map Prod.snd
      else none := by
  rw [Registry.fetch?_install, h.generation, h.fetch? handle]
  by_cases hg : handle.generation = old.generation + 1 <;> simp [hg]

/-- The handles that a page got in the generation are the live ones. -/
theorem fetch?_install_isSome_iff (h : Building old served registry) (handle : Handle) :
    ((registry.install registry.generation).fetch? handle).isSome = true ↔
      ∃ path, (path, handle) ∈ registry.current := by
  simp only [h.fetch?_install, h.mem_current_iff]
  by_cases hg : handle.generation = old.generation + 1
  · simp only [hg, true_and]
    cases served[handle.sequence]? with
    | none => simp
    | some entry => simp [Prod.ext_iff]
  · simp [hg]

/-- They fetch the same before the generation is installed. -/
theorem fetch?_install_of_mem_current (h : Building old served registry) {path : Path}
    {handle : Handle} (hm : (path, handle) ∈ registry.current) :
    (registry.install registry.generation).fetch? handle = registry.fetch? handle := by
  have hg := (h.mem_current_iff.mp hm).1
  rw [h.fetch?_install, h.fetch?, if_pos hg, if_pos hg]

theorem mem_served_iff (h : Building old served registry) {path : Path} {code : String} :
    (path, code) ∈ served ↔ ∃ handle, (path, handle) ∈ registry.current ∧
      (registry.install registry.generation).fetch? handle = some code := by
  simp only [h.mem_current_iff, h.fetch?_install]
  constructor
  · intro hm
    obtain ⟨i, hi⟩ := List.mem_iff_getElem?.mp hm
    exact ⟨⟨old.generation + 1, i⟩, ⟨rfl, code, hi⟩, by simp [hi]⟩
  · rintro ⟨handle, ⟨hg, found, hs⟩, hf⟩
    have hcode : found = code := by simpa [hg, hs] using hf
    exact hcode ▸ List.mem_of_getElem? hs

/-- To discard the generation leaves the live handles that there were. -/
theorem fetch?_discard (h : Building old served registry) (ho : old.Resting) (handle : Handle) :
    (registry.discard registry.generation).fetch? handle = old.fetch? handle := by
  have hne : registry.installed ≠ some registry.generation := by
    rw [h.installed, h.generation]
    exact ho.installed.startGeneration
  rw [Registry.fetch?_discard hne, h.generation, h.fetch? handle]
  by_cases hg : handle.generation = old.generation + 1
  · have hnone : old.fetch? handle = none := ho.bounded.fetch?_eq_none (by omega)
    simp [hg, hnone]
  · simp [hg]

theorem installed_discard (h : Building old served registry) :
    (registry.discard registry.generation).installed = old.installed :=
  (frame_discard registry registry.generation).2.2.trans h.installed

theorem resting_install (h : Building old served registry) :
    (registry.install registry.generation).Resting := by
  refine ⟨fun handle hlive => ?_, installedBound_install registry⟩
  rw [h.fetch?_install] at hlive
  show handle.generation ≤ registry.generation
  rw [h.generation]
  split at hlive
  · omega
  · exact absurd rfl hlive

theorem resting_discard (h : Building old served registry) (ho : old.Resting) :
    (registry.discard registry.generation).Resting := by
  have hg := (frame_discard registry registry.generation).1
  refine ⟨fun handle hlive => ?_, ?_⟩
  · rw [h.fetch?_discard ho] at hlive
    have hle := ho.bounded handle hlive
    rw [hg, h.generation]
    omega
  · intro generation hi
    have hle := ho.installed generation (h.installed_discard ▸ hi)
    rw [hg, h.generation]
    omega

end Building

end LivePreview.Registry
