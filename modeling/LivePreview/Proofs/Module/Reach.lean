import Mathlib.Data.List.Basic
import Mathlib.Data.List.Nodup
import LivePreview.Module.Graph
import LivePreview.Proofs.Resolution

/-!
# What an entry reaches

The files that an entry file reaches by imports, as a relation, and the order in which the graph
lists them: each once, breadth-first. The walk has fuel for every path that an import can resolve
to, so it stops for want of paths alone.
-/
namespace LivePreview

/-! ### Lists without repeats -/

theorem nodup_eraseDups {α : Type} [DecidableEq α] (xs : List α) : xs.eraseDups.Nodup := by
  cases xs with
  | nil => simp
  | cons x rest =>
    rw [List.eraseDups_cons, List.nodup_cons]
    exact ⟨by simp [List.mem_eraseDups], nodup_eraseDups _⟩
termination_by xs.length
decreasing_by
  have hle := List.length_filter_le (fun y => !y == x) rest
  simp only [List.length_cons]
  omega

theorem eraseDups_eq_self {α : Type} [DecidableEq α] {xs : List α} (h : xs.Nodup) :
    xs.eraseDups = xs := by
  induction xs with
  | nil => rfl
  | cons x rest ih =>
    obtain ⟨hx, hrest⟩ := List.nodup_cons.mp h
    have hfilter : rest.filter (fun y => !y == x) = rest := by
      rw [List.filter_eq_self]
      intro y hy
      have hne : y ≠ x := fun he => hx (he ▸ hy)
      simpa using hne
    rw [List.eraseDups_cons, hfilter, ih hrest]

theorem eraseDups_filter {α : Type} [DecidableEq α] (p : α → Bool) (xs : List α) :
    (xs.filter p).eraseDups = xs.eraseDups.filter p := by
  cases xs with
  | nil => simp
  | cons x rest =>
    have ih := eraseDups_filter p (rest.filter fun y => !y == x)
    rw [List.eraseDups_cons]
    by_cases hp : p x
    · rw [List.filter_cons_of_pos hp, List.filter_cons_of_pos hp, List.eraseDups_cons, ← ih,
        List.filter_filter, List.filter_filter]
      simp only [Bool.and_comm]
    · have hother : ∀ y, (p y && !y == x) = p y := fun y => by
        by_cases hy : y = x
        · simp [hy, hp]
        · simp [hy]
      rw [List.filter_cons_of_neg hp, List.filter_cons_of_neg hp, ← ih, List.filter_filter]
      simp only [hother]
termination_by xs.length
decreasing_by
  have hle := List.length_filter_le (fun y => !y == x) rest
  simp only [List.length_cons]
  omega

theorem nodup_append_filter {α : Type} [DecidableEq α] {seen new : List α} (hs : seen.Nodup)
    (hn : new.Nodup) : (seen ++ new.filter fun a => !seen.contains a).Nodup := by
  refine List.nodup_append.mpr ⟨hs, hn.filter _, fun a ha b hb he => ?_⟩
  subst he
  have hb' := (List.mem_filter.mp hb).2
  simp [ha] at hb'

/-- Of what follows `seen`, only what was not seen matters. -/
theorem eraseDups_append_new {α : Type} [DecidableEq α] {seen : List α} (hs : seen.Nodup)
    (found rest : List α) :
    (seen ++ found.eraseDups.filter (fun a => !seen.contains a) ++ rest).eraseDups =
      (seen ++ found ++ rest).eraseDups := by
  have hboth := nodup_append_filter hs (nodup_eraseDups found)
  have hnew : found.eraseDups.filter (fun a => !seen.contains a) =
      (found.removeAll seen).eraseDups := (eraseDups_filter _ found).symm
  rw [hnew] at hboth ⊢
  have hrest : rest.removeAll (seen ++ (found.removeAll seen).eraseDups) =
      rest.removeAll (seen ++ found) := by
    refine List.filter_congr fun a _ => ?_
    have hmem : a ∈ seen ++ (found.removeAll seen).eraseDups ↔ a ∈ seen ++ found := by
      simp only [List.removeAll, List.mem_append, List.mem_eraseDups, List.mem_filter,
        Bool.not_eq_true', List.elem_eq_contains, List.contains_eq_mem, decide_eq_false_iff_not]
      tauto
    simp only [List.elem_eq_mem, hmem]
  calc (seen ++ (found.removeAll seen).eraseDups ++ rest).eraseDups
      = seen ++ (found.removeAll seen).eraseDups ++ (rest.removeAll (seen ++ found)).eraseDups := by
        rw [List.eraseDups_append, eraseDups_eq_self hboth, hrest]
    _ = (seen ++ found ++ rest).eraseDups := by
        rw [List.eraseDups_append, List.eraseDups_append, eraseDups_eq_self hs]

/-! ### Reaching -/

namespace Config

/-- What the import sites of a script lead to. Other files import nothing. -/
def imports (config : Config) (store : Store) (path : Path) : List Link :=
  match ModuleKind.ofPath config path, store.read path.text with
  | .script dialect, .ok content => config.links store path (Source.importSites content dialect)
  | _, _ => []

/-- The files that a file imports, one for each site. -/
def importedFiles (config : Config) (store : Store) (path : Path) : List Path :=
  (config.imports store path).filterMap Link.file?

inductive Reaches (config : Config) (store : Store) (entry : Path) : Path → Prop
  | entry : Reaches config store entry entry
  | step {path next : Path} (h : Reaches config store entry path)
      (hn : next ∈ config.importedFiles store path) : Reaches config store entry next

/-- The paths that the entry reaches, each once: the entry, and then what the members import, in the
order of the members and of their sites. -/
structure BreadthFirst (config : Config) (store : Store) (entry : Path) (order : List Path) :
    Prop where
  mem_iff : ∀ path, path ∈ order ↔ config.Reaches store entry path
  eq : order = (entry :: order.flatMap (config.importedFiles store)).eraseDups

variable {config : Config} {store : Store} {importer path entry : Path}

theorem BreadthFirst.nodup {order : List Path} (h : config.BreadthFirst store entry order) :
    order.Nodup := by
  rw [h.eq]
  exact nodup_eraseDups _

theorem mem_importedFiles_iff :
    path ∈ config.importedFiles store importer ↔
      ∃ link ∈ config.imports store importer, link.resolution = .file path := by
  rw [importedFiles, List.mem_filterMap]
  refine exists_congr fun link => and_congr_right fun _ => ?_
  obtain ⟨site, resolution⟩ := link
  cases resolution <;> simp [Link.file?]

theorem resolve?_of_mem_imports {link : Link} (h : link ∈ config.imports store importer) :
    config.resolve? store importer link.site.specifier = some link.resolution := by
  rw [imports] at h
  split at h
  · obtain ⟨site, _, hs⟩ := List.mem_filterMap.mp h
    obtain ⟨resolution, hr, rfl⟩ := Option.map_eq_some_iff.mp hs
    exact hr
  · cases h

theorem isFile_of_mem_importedFiles (h : path ∈ config.importedFiles store importer) :
    store.isFile path = true := by
  obtain ⟨link, hl, hp⟩ := mem_importedFiles_iff.mp h
  have hr := resolve?_of_mem_imports hl
  rw [hp] at hr
  exact isFile_of_resolve? hr

/-- Whatever a file reaches is a file. -/
theorem Reaches.isFile (h : config.Reaches store entry path) (he : store.isFile entry = true) :
    store.isFile path = true := by
  induction h with
  | entry => exact he
  | step _ hn _ => exact isFile_of_mem_importedFiles hn

end Config

/-! ### Drafts -/

namespace Draft

variable (config : Config) (store : Store) (path : Path)

theorem path_ofPath : (ofPath config store path).path = path := by
  rw [ofPath]
  cases store.read path.text with
  | error e => rfl
  | ok content => cases ModuleKind.ofPath config path <;> rfl

theorem kind_ofPath : (ofPath config store path).kind = ModuleKind.ofPath config path := by
  rw [ofPath]
  cases store.read path.text with
  | error e => rfl
  | ok content => cases ModuleKind.ofPath config path <;> rfl

theorem dependencies_ofPath :
    (ofPath config store path).dependencies = (config.importedFiles store path).eraseDups := by
  rw [ofPath, Config.importedFiles, Config.imports]
  cases store.read path.text with
  | error e => cases ModuleKind.ofPath config path <;> rfl
  | ok content => cases ModuleKind.ofPath config path <;> rfl

theorem packages_ofPath :
    (ofPath config store path).packages =
      ((config.imports store path).filterMap Link.package?).eraseDups := by
  rw [ofPath, Config.imports]
  cases store.read path.text with
  | error e => cases ModuleKind.ofPath config path <;> rfl
  | ok content => cases ModuleKind.ofPath config path <;> rfl

theorem lazyStyles_ofPath :
    (ofPath config store path).lazyStyles =
      ((config.imports store path).filterMap (Link.lazyStyle? config)).eraseDups := by
  rw [ofPath, Config.imports]
  cases store.read path.text with
  | error e => cases ModuleKind.ofPath config path <;> rfl
  | ok content => cases ModuleKind.ofPath config path <;> rfl

end Draft

/-! ### The paths that an import can resolve to -/

namespace Config

variable {config : Config} {store : Store} {importer path entry : Path}

theorem exists_base_of_mem_importedFiles (h : path ∈ config.importedFiles store importer) :
    ∃ base, base.segments = base.names ∧ path ∈ config.candidates base := by
  obtain ⟨link, hl, hp⟩ := mem_importedFiles_iff.mp h
  have hr := resolve?_of_mem_imports hl
  rw [hp] at hr
  obtain ⟨base, ht, hfirst⟩ := resolve?_eq_file_iff.mp hr
  exact ⟨base, segments_of_target ht, List.mem_of_find?_eq_some hfirst⟩

/-- The index file that stands at the segments, as it is written when its directory is imported. -/
def indexAlias (config : Config) (segments : List String) (extension : String) : Path :=
  let name := config.indexBasename ++ extension
  let behind := (Path.splitNames name).filter (· ≠ "")
  Path.child ⟨segments.take (segments.length - behind.length)⟩ name

theorem child_eq_indexAlias {base : Path} (hb : base.segments = base.names) (extension : String) :
    base.child (config.indexBasename ++ extension) =
      config.indexAlias (base.child (config.indexBasename ++ extension)).segments extension := by
  rw [indexAlias, Path.segments_child, List.length_append, Nat.add_sub_cancel, List.take_left, hb]

/-- The paths that an import can resolve to. -/
def targets (config : Config) (store : Store) : List Path :=
  store.files.flatMap fun (file, _) =>
    file :: config.extensions.map (config.indexAlias file.segments)

theorem length_targets (config : Config) (store : Store) :
    (config.targets store).length = store.files.length * (config.extensions.length + 1) := by
  rw [targets, List.length_flatMap]
  simp

theorem mem_targets (hw : store.WellFormed) (h : path ∈ config.importedFiles store importer) :
    path ∈ config.targets store := by
  obtain ⟨node, hfile⟩ := hw.mem_files (isFile_of_mem_importedFiles h)
  obtain ⟨base, hb, hc⟩ := exists_base_of_mem_importedFiles h
  refine List.mem_flatMap.mpr ⟨_, hfile, ?_⟩
  have hself : path.segments = path.names →
      path ∈ (⟨path.segments⟩ : Path) ::
        config.extensions.map (config.indexAlias (⟨path.segments⟩ : Path).segments) := by
    intro hs
    rw [hs]
    exact List.mem_cons_self
  rcases mem_candidates_iff.mp hc with rfl | ⟨_, extension, _, hp⟩ | ⟨extension, he, rfl⟩
  · exact hself hb
  · exact hself (Path.segments_of_parse hp)
  · have hsegments : ∀ path : Path, (⟨path.segments⟩ : Path).segments = path.segments :=
      fun path => List.filter_filter.trans (by simp [Path.segments])
    refine List.mem_cons_of_mem _ (List.mem_map.mpr ⟨extension, he, ?_⟩)
    rw [hsegments]
    exact (child_eq_indexAlias hb extension).symm

end Config

/-! ### The walk -/

namespace ModuleGraph

variable {config : Config} {store : Store} {entry : Path}

theorem exists_path_of_mem_drafts {draft : Draft} (h : draft ∈ drafts config store entry) :
    ∃ path, draft = .ofPath config store path := by
  have hgeneral : ∀ (fuel : Nat) (seen queue : List Path),
      draft ∈ draftsFrom config store fuel seen queue →
        ∃ path, draft = .ofPath config store path := by
    intro fuel
    induction fuel with
    | zero => exact fun _ _ h => nomatch h
    | succ fuel ih =>
      intro seen queue h
      cases queue with
      | nil => cases h
      | cons path queue =>
        rcases List.mem_cons.mp h with rfl | h
        · exact ⟨path, rfl⟩
        · exact ih _ _ h
  exact hgeneral _ _ _ h

/-- There is fuel for all paths of a list but those that are done, and the walk meets no others. -/
structure Fuelled (known : List Path) (fuel : Nat) (done queue : List Path) : Prop where
  nodup : (done ++ queue).Nodup
  subset : ∀ path ∈ done ++ queue, path ∈ known
  length_le : known.length ≤ fuel + done.length

theorem Fuelled.queue_eq_nil {known done queue : List Path} (h : Fuelled known 0 done queue) :
    queue = [] := by
  have hle := h.nodup.length_le_of_subset h.subset
  have hlength := h.length_le
  rw [List.length_append] at hle
  exact List.eq_nil_of_length_eq_zero (by omega)

/-- What a path imports and was not seen is new to the walk. -/
def found (config : Config) (store : Store) (seen : List Path) (path : Path) : List Path :=
  (config.importedFiles store path).eraseDups.filter fun next => !seen.contains next

theorem mem_found_iff {seen : List Path} {path next : Path} :
    next ∈ found config store seen path ↔
      next ∈ config.importedFiles store path ∧ next ∉ seen := by
  rw [found, List.mem_filter, List.mem_eraseDups]
  simp

theorem Fuelled.step {known done queue : List Path} {fuel : Nat} {path : Path}
    (hk : ∀ path ∈ known, ∀ next ∈ config.importedFiles store path, next ∈ known)
    (h : Fuelled known (fuel + 1) done (path :: queue)) :
    Fuelled known fuel (done ++ [path])
      (queue ++ found config store (done ++ path :: queue) path) := by
  have hseen : done ++ [path] ++ (queue ++ found config store (done ++ path :: queue) path) =
      done ++ path :: queue ++ found config store (done ++ path :: queue) path := by simp
  constructor
  · rw [hseen]
    exact nodup_append_filter h.nodup (nodup_eraseDups _)
  · rw [hseen]
    intro next hm
    rcases List.mem_append.mp hm with hm | hm
    · exact h.subset next hm
    · exact hk path (h.subset path (by simp)) next (mem_found_iff.mp hm).1
  · have hle := h.length_le
    rw [List.length_append, List.length_singleton]
    omega

/-- With fuel for every path of a closed list, the walk goes on until nothing new is imported. -/
theorem draftsFrom_eq {known : List Path}
    (hk : ∀ path ∈ known, ∀ next ∈ config.importedFiles store path, next ∈ known) {fuel : Nat}
    {done queue : List Path} (h : Fuelled known fuel done queue) :
    let order := (draftsFrom config store fuel (done ++ queue) queue).map (·.path)
    done ++ order = (done ++ queue ++ order.flatMap (config.importedFiles store)).eraseDups := by
  have hend : ∀ done : List Path, (done ++ []).Nodup →
      done ++ [] = (done ++ [] ++ []).eraseDups := by
    intro done h
    rw [List.append_nil (done ++ []), eraseDups_eq_self h]
  induction fuel generalizing done queue with
  | zero =>
    obtain rfl := h.queue_eq_nil
    exact hend done h.nodup
  | succ fuel ih =>
    cases queue with
    | nil => exact hend done h.nodup
    | cons path queue =>
      have hdraft : (Draft.ofPath config store path).dependencies =
          (config.importedFiles store path).eraseDups := Draft.dependencies_ofPath _ _ _
      rw [draftsFrom, hdraft]
      dsimp only
      rw [List.map_cons, Draft.path_ofPath, List.flatMap_cons]
      have hseen : done ++ [path] ++ (queue ++ found config store (done ++ path :: queue) path) =
          done ++ path :: queue ++ found config store (done ++ path :: queue) path := by simp
      have htail := ih (h.step hk)
      dsimp only at htail
      rw [hseen, found, eraseDups_append_new h.nodup] at htail
      rw [← List.append_assoc (done ++ path :: queue), ← htail]
      simp

/-- No path is walked twice, with whatever fuel. -/
theorem nodup_draftsFrom (fuel : Nat) {done queue : List Path} (hn : (done ++ queue).Nodup) :
    (done ++ (draftsFrom config store fuel (done ++ queue) queue).map (·.path)).Nodup := by
  induction fuel generalizing done queue with
  | zero => simpa [draftsFrom] using (List.nodup_append.mp hn).1
  | succ fuel ih =>
    cases queue with
    | nil => simpa [draftsFrom] using hn
    | cons path queue =>
      have hnew : (Draft.ofPath config store path).dependencies.Nodup := by
        rw [Draft.dependencies_ofPath]
        exact nodup_eraseDups _
      have hseen := nodup_append_filter hn hnew
      rw [List.append_assoc, List.cons_append, List.append_cons] at hseen
      have hrest := ih hseen
      rw [draftsFrom, List.map_cons, Draft.path_ofPath, List.append_cons]
      simpa using hrest

theorem nodup_drafts (config : Config) (store : Store) (entry : Path) :
    ((drafts config store entry).map (·.path)).Nodup :=
  @nodup_draftsFrom config store (pathBound config store) [] [entry] (List.nodup_singleton entry)

theorem reaches_of_mem_draftsFrom {draft : Draft} {fuel : Nat} {seen queue : List Path}
    (hq : ∀ path ∈ queue, config.Reaches store entry path)
    (h : draft ∈ draftsFrom config store fuel seen queue) :
    config.Reaches store entry draft.path := by
  induction fuel generalizing seen queue with
  | zero => cases h
  | succ fuel ih =>
    cases queue with
    | nil => cases h
    | cons path queue =>
      have hpath := hq path List.mem_cons_self
      rcases List.mem_cons.mp h with rfl | h
      · rw [Draft.path_ofPath]
        exact hpath
      · refine ih (fun next hm => ?_) h
        rcases List.mem_append.mp hm with hm | hm
        · exact hq next (List.mem_cons_of_mem _ hm)
        · have hnext := (List.mem_filter.mp hm).1
          rw [Draft.dependencies_ofPath, List.mem_eraseDups] at hnext
          exact hpath.step hnext

/-- The entry and all that an import can resolve to. -/
def known (config : Config) (store : Store) (entry : Path) : List Path :=
  entry :: config.targets store

theorem importedFiles_subset (hw : store.WellFormed) (config : Config) (entry : Path) :
    ∀ path ∈ known config store entry, ∀ next ∈ config.importedFiles store path,
      next ∈ known config store entry :=
  fun _ _ _ hn => List.mem_cons_of_mem _ (Config.mem_targets hw hn)

theorem fuelled_start (config : Config) (store : Store) (entry : Path) :
    Fuelled (known config store entry) (pathBound config store) [] [entry] where
  nodup := List.nodup_singleton entry
  subset := fun _ hm => List.mem_singleton.mp hm ▸ List.mem_cons_self
  length_le := by
    rw [known, List.length_cons, Config.length_targets, pathBound]
    exact Nat.le_refl _

/-- The drafts of an entry are those of what it reaches, breadth-first. -/
theorem breadthFirst_drafts (hw : store.WellFormed) (config : Config) (entry : Path) :
    config.BreadthFirst store entry ((drafts config store entry).map (·.path)) := by
  have hk := importedFiles_subset hw config entry
  have horder : (drafts config store entry).map (·.path) =
      (entry :: ((drafts config store entry).map (·.path)).flatMap
        (config.importedFiles store)).eraseDups := by
    have heq := draftsFrom_eq hk (fuelled_start config store entry)
    simpa only [drafts, List.nil_append, List.singleton_append] using heq
  refine ⟨fun path => ⟨fun h => ?_, fun h => ?_⟩, horder⟩
  · obtain ⟨draft, hd, rfl⟩ := List.mem_map.mp h
    refine reaches_of_mem_draftsFrom (fun path hm => ?_) hd
    obtain rfl := List.mem_singleton.mp hm
    exact .entry
  · induction h with
    | entry =>
      rw [horder, List.mem_eraseDups]
      exact List.mem_cons_self
    | step _ hn ih =>
      rw [horder, List.mem_eraseDups]
      exact List.mem_cons_of_mem _ (List.mem_flatMap.mpr ⟨_, ih, hn⟩)

end ModuleGraph

end LivePreview
