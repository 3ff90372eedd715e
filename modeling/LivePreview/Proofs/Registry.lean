import LivePreview.Proofs.Table.Order
import LivePreview.Registry

/-!
# Registrations

What one build registers: the paths, the places of their handles in the generation and the code
behind them. Nothing that other generations hold has a part in it, so two registries that register
the same modules stay alike whatever they held before.
-/
namespace LivePreview

namespace Registry

/-- What is registered in the current generation. -/
def registrations (registry : Registry) : List (Path × Nat × Option String) :=
  registry.current.map fun (path, handle) => (path, handle.sequence, registry.fetch? handle)

/-- The handles of the current registrations belong to the current generation. -/
def Own (registry : Registry) : Prop :=
  ∀ entry ∈ registry.current, entry.2.generation = registry.generation

theorem fetch?_setCode (registry : Registry) (handle : Handle) (code : String) (other : Handle) :
    (registry.setCode handle code).fetch? other =
      if other = handle then some code else registry.fetch? other := by
  rw [fetch?, setCode, Table.get?_append, fetch?]
  by_cases h : other = handle
  · subst h
    rw [if_pos rfl, Table.get?_erase_self, Table.get?, if_pos rfl]
    rfl
  · rw [if_neg h, Table.get?_erase_of_ne h, Table.get?, if_neg h, Table.get?]
    exact Option.or_none

theorem fetch?_register (registry : Registry) (path : Path) (code : String) (other : Handle) :
    (registry.register path code).1.fetch? other =
      if other = (registry.register path code).2 then some code else registry.fetch? other := by
  rw [register]
  cases hh : registry.handle? path with
  | some handle => exact fetch?_setCode registry handle code other
  | none => exact fetch?_setCode _ _ code other

theorem get?_registrations (registry : Registry) (path : Path) :
    Table.get? path registry.registrations =
      (registry.handle? path).map fun handle => (handle.sequence, registry.fetch? handle) :=
  Table.get?_map (fun _ (handle : Handle) => (handle.sequence, registry.fetch? handle)) path
    registry.current

/-- The code of one place among registrations. -/
def replaceCode (sequence : Nat) (code : String)
    (registrations : List (Path × Nat × Option String)) : List (Path × Nat × Option String) :=
  registrations.map fun (path, place, old) =>
    (path, place, if place = sequence then some code else old)

theorem registrations_setCode {registry : Registry} (h : registry.Own) {handle : Handle}
    (hh : handle.generation = registry.generation) (code : String) :
    (registry.setCode handle code).registrations =
      replaceCode handle.sequence code registry.registrations := by
  rw [replaceCode, registrations, registrations, List.map_map]
  refine List.map_congr_left fun entry hm => ?_
  have hown := h entry hm
  dsimp only [Function.comp]
  rw [fetch?_setCode]
  by_cases he : entry.2 = handle
  · rw [if_pos he, if_pos (congrArg Handle.sequence he)]
  · rw [if_neg he, if_neg]
    intro hs
    obtain ⟨generation, sequence⟩ := handle
    obtain ⟨path, generation', sequence'⟩ := entry
    cases hs
    cases hh
    cases hown
    exact he rfl

/-- What becomes of registrations when a path is registered. -/
def addRegistration (next : Nat) (path : Path) (code : String)
    (registrations : List (Path × Nat × Option String)) : List (Path × Nat × Option String) :=
  match Table.get? path registrations with
  | some (place, _) => replaceCode place code registrations
  | none => replaceCode next code registrations ++ [(path, next, some code)]

/-- The next handle belongs to the current generation. -/
theorem own_concat {registry : Registry} (h : registry.Own) (path : Path) :
    Own { registry with
      nextSequence := registry.nextSequence + 1
      current := registry.current ++
        [(path, ⟨registry.generation, registry.nextSequence⟩)] } := by
  intro entry hm
  rcases List.mem_append.mp hm with hm | hm
  · exact h entry hm
  · obtain rfl := List.mem_singleton.mp hm
    rfl

theorem own_register {registry : Registry} (h : registry.Own) (path : Path) (code : String) :
    (registry.register path code).1.Own := by
  rw [register]
  cases hh : registry.handle? path with
  | some handle => exact h
  | none => exact own_concat h path

theorem generation_register (registry : Registry) (path : Path) (code : String) :
    (registry.register path code).1.generation = registry.generation := by
  rw [register]
  cases registry.handle? path <;> rfl

theorem installed_register (registry : Registry) (path : Path) (code : String) :
    (registry.register path code).1.installed = registry.installed := by
  rw [register]
  cases registry.handle? path <;> rfl

theorem nextSequence_register (registry : Registry) (path : Path) (code : String) :
    (registry.register path code).1.nextSequence =
      if (Table.get? path registry.registrations).isSome then registry.nextSequence
      else registry.nextSequence + 1 := by
  rw [register, get?_registrations]
  cases registry.handle? path <;> rfl

theorem registrations_register {registry : Registry} (h : registry.Own) (path : Path)
    (code : String) :
    (registry.register path code).1.registrations =
      addRegistration registry.nextSequence path code registry.registrations := by
  rw [register, addRegistration, get?_registrations]
  cases hh : registry.handle? path with
  | some handle =>
    have hm : (path, handle) ∈ registry.current := Table.mem_of_get?_eq_some hh
    exact registrations_setCode h (h _ hm) code
  | none =>
    refine (registrations_setCode (own_concat h path) rfl code).trans ?_
    rw [replaceCode, registrations, List.map_append, List.map_append]
    refine congrArg (registry.registrations.map _ ++ ·) ?_
    rw [List.map_singleton, List.map_singleton]
    dsimp only
    rw [if_pos rfl]

/-! ### Installing and discarding -/

theorem fetch?_keep (registry : Registry) (p : Handle → Bool) (handle : Handle) :
    (registry.keep p).fetch? handle = if p handle then registry.fetch? handle else none :=
  Table.get?_filter p handle registry.live

theorem fetch?_install (registry : Registry) (generation : Nat) (handle : Handle) :
    (registry.install generation).fetch? handle =
      if handle.generation = generation then registry.fetch? handle else none := by
  have hkeep := fetch?_keep registry (fun handle => handle.generation = generation) handle
  simp only [decide_eq_true_eq] at hkeep
  exact hkeep

/-- To install the current generation releases none of its handles. -/
theorem registrations_install {registry : Registry} (h : registry.Own) :
    (registry.install registry.generation).registrations = registry.registrations := by
  refine List.map_congr_left fun entry hm => ?_
  have hfetch := fetch?_install registry registry.generation entry.2
  rw [if_pos (h entry hm)] at hfetch
  exact congrArg (fun code => (entry.1, entry.2.sequence, code)) hfetch

/-- To discard a generation starts none and installs none. -/
theorem frame_discard (registry : Registry) (generation : Nat) :
    (registry.discard generation).generation = registry.generation ∧
      (registry.discard generation).nextSequence = registry.nextSequence ∧
      (registry.discard generation).installed = registry.installed := by
  rw [discard]
  split
  · exact ⟨rfl, rfl, rfl⟩
  · dsimp only
    split <;> exact ⟨rfl, rfl, rfl⟩

theorem fetch?_discard {registry : Registry} {generation : Nat}
    (h : registry.installed ≠ some generation) (handle : Handle) :
    (registry.discard generation).fetch? handle =
      if handle.generation = generation then none else registry.fetch? handle := by
  have hkeep : (registry.keep fun handle => handle.generation ≠ generation).fetch? handle =
      if handle.generation = generation then none else registry.fetch? handle := by
    rw [fetch?_keep]
    by_cases hg : handle.generation = generation <;> simp [hg]
  rw [discard, if_neg h]
  dsimp only
  split <;> exact hkeep

theorem current_discard {registry : Registry} {generation : Nat}
    (h : registry.installed ≠ some generation) :
    (registry.discard generation).current =
      if registry.generation = generation then [] else registry.current := by
  rw [discard, if_neg h]
  dsimp only [keep]
  split <;> rfl

/-- To discard the current generation leaves nothing registered. -/
theorem registrations_discard {registry : Registry}
    (h : registry.installed ≠ some registry.generation) :
    (registry.discard registry.generation).registrations = [] := by
  rw [registrations, current_discard h, if_pos rfl]
  rfl

/-- No generation to come is installed already. -/
def InstalledBound (registry : Registry) : Prop :=
  ∀ generation, registry.installed = some generation → generation ≤ registry.generation

theorem installedBound_install (registry : Registry) :
    (registry.install registry.generation).InstalledBound := by
  intro generation h
  exact Nat.le_of_eq (Option.some.inj h).symm

theorem InstalledBound.discard {registry : Registry} (h : registry.InstalledBound)
    (generation : Nat) : (registry.discard generation).InstalledBound := by
  obtain ⟨hgeneration, -, hinstalled⟩ := frame_discard registry generation
  intro other hi
  exact hgeneration.symm ▸ h other (hinstalled ▸ hi)

theorem InstalledBound.startGeneration {registry : Registry} (h : registry.InstalledBound) :
    registry.startGeneration.installed ≠ some registry.startGeneration.generation := by
  intro he
  have hle : registry.generation + 1 ≤ registry.generation := h _ he
  omega

/-! ### Alike up to generations -/

/-- The same registrations, in whatever generations. -/
structure Alike (a b : Registry) : Prop where
  left : a.Own
  right : b.Own
  registrations : a.registrations = b.registrations
  nextSequence : a.nextSequence = b.nextSequence

namespace Alike

theorem startGeneration (a b : Registry) : a.startGeneration.Alike b.startGeneration where
  left := fun _ hm => nomatch hm
  right := fun _ hm => nomatch hm
  registrations := rfl
  nextSequence := rfl

variable {a b : Registry}

theorem register (h : a.Alike b) (path : Path) (code : String) :
    (a.register path code).1.Alike (b.register path code).1 where
  left := own_register h.left path code
  right := own_register h.right path code
  registrations := by
    rw [registrations_register h.left, registrations_register h.right, h.registrations,
      h.nextSequence]
  nextSequence := by
    rw [nextSequence_register, nextSequence_register, h.registrations, h.nextSequence]

theorem sequence_handle? (h : a.Alike b) (path : Path) :
    (a.handle? path).map (·.sequence) = (b.handle? path).map (·.sequence) := by
  have hfound := congrArg (Option.map Prod.fst) (get?_registrations a path)
  rw [h.registrations, get?_registrations b path, Option.map_map, Option.map_map] at hfound
  exact hfound.symm

end Alike

end Registry

/-! ### Import maps up to generations -/

/-- The handles that an import map names are those of paths. -/
theorem Registry.exists_of_mem_handles {registry : Registry} {config : Config} {entry : Handle}
    {packages : List Package} {handle : Handle}
    (hm : handle ∈ (registry.importMap config entry packages).handles) :
    ∃ path, (path, handle) ∈ registry.current := by
  obtain ⟨⟨specifier, resource⟩, hr, hh⟩ := List.mem_filterMap.mp hm
  rcases List.mem_append.mp (Table.mem_of_mem_ofList hr) with hr | hr
  · obtain ⟨⟨path, found⟩, hf, he⟩ := List.mem_map.mp hr
    cases he
    cases hh
    exact ⟨path, hf⟩
  · obtain ⟨package, -, he⟩ := List.mem_map.mp hr
    cases he
    cases hh

/-- The handle without its generation. -/
def Handle.forget (handle : Handle) : Handle := ⟨0, handle.sequence⟩

def Resource.forget : Resource → Resource
  | module handle => .module handle.forget
  | external url => .external url

/-- The import map without the generations of its handles. -/
def ImportMap.forget (map : ImportMap) : ImportMap :=
  { imports := map.imports.map fun (specifier, resource) => (specifier, resource.forget)
    entry := map.entry.forget }

theorem Registry.forget_importMap (registry : Registry) (config : Config) (entry : Handle)
    (packages : List Package) :
    (registry.importMap config entry packages).forget =
      { imports := Table.ofList
          ((registry.registrations.map fun (path, sequence, _) =>
              (path.text, Resource.module ⟨0, sequence⟩)) ++
            packages.map fun p => (p.specifier, Resource.external (p.url config)))
        entry := entry.forget } := by
  rw [importMap, ImportMap.forget]
  refine congrArg (ImportMap.mk · entry.forget) ?_
  refine (Table.map_ofList Resource.forget _).trans ?_
  rw [List.map_append, List.map_map, List.map_map, registrations, List.map_map]
  rfl

end LivePreview
