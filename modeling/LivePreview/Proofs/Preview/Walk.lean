import Mathlib.Data.List.Pairwise
import LivePreview.Proofs.Preview.ImportMap

/-!
# The walk of a graph

`Walks` is the walk as a loop that nothing bounds: it ends, with the modules of the graph. While it
goes on, the queue holds files at one distance from the entry and then files one import further, so
the distances of the modules never decrease. Whether a file fails or was remembered has no part in
what it leads to.
-/
namespace LivePreview

/-! ### Distances -/

namespace Config

/-- The file is a script that has an import site which resolves to the other file. -/
def Imports (config : Config) (store : Store) (path next : Path) : Prop :=
  ∃ dialect content, ModuleKind.ofPath config path = .script dialect ∧
    store.read path.text = .ok content ∧
    ∃ site ∈ Source.importSites content dialect,
      config.resolve? store path site.specifier = some (.file next)

/-- The path is reached from the entry by so many imports. -/
inductive ReachesIn (config : Config) (store : Store) (entry : Path) : Nat → Path → Prop
  | entry : ReachesIn config store entry 0 entry
  | step {n : Nat} {path next : Path} (h : ReachesIn config store entry n path)
      (hi : config.Imports store path next) : ReachesIn config store entry (n + 1) next

/-- The least number of imports by which the path is reached. -/
structure Distance (config : Config) (store : Store) (entry : Path) (n : Nat) (path : Path) :
    Prop where
  reaches : config.ReachesIn store entry n path
  le : ∀ {k : Nat}, config.ReachesIn store entry k path → n ≤ k

variable {config : Config} {store : Store} {entry path next : Path}

theorem mem_importedFiles_iff_imports :
    next ∈ config.importedFiles store path ↔ config.Imports store path next := by
  rw [mem_importedFiles_iff, imports, Imports]
  constructor
  · rintro ⟨link, hl, hn⟩
    split at hl
    · rename_i dialect content hk hr
      obtain ⟨site, hs, hlink⟩ := List.mem_filterMap.mp hl
      obtain ⟨resolution, hresolve, rfl⟩ := Option.map_eq_some_iff.mp hlink
      obtain rfl : resolution = .file next := hn
      exact ⟨dialect, content, hk, hr, site, hs, hresolve⟩
    · cases hl
  · rintro ⟨dialect, content, hk, hr, site, hs, hresolve⟩
    rw [hk, hr]
    exact ⟨⟨site, .file next⟩, List.mem_filterMap.mpr ⟨site, hs, by rw [hresolve]; rfl⟩, rfl⟩

theorem reaches_iff_exists_reachesIn :
    config.Reaches store entry path ↔ ∃ n, config.ReachesIn store entry n path := by
  constructor
  · intro h
    induction h with
    | entry => exact ⟨0, .entry⟩
    | step _ hn ih =>
      obtain ⟨n, hreach⟩ := ih
      exact ⟨n + 1, hreach.step (mem_importedFiles_iff_imports.mp hn)⟩
  · rintro ⟨n, h⟩
    induction h with
    | entry => exact .entry
    | step _ hi ih => exact ih.step (mem_importedFiles_iff_imports.mpr hi)

theorem distance_entry : config.Distance store entry 0 entry :=
  ⟨.entry, fun _ => Nat.zero_le _⟩

/-! ### The queue of a walk -/

/-- Where a walk stands: the queue has the paths at one distance that are left, `near`, and then the
paths found so far that are one import further, `far`. -/
structure Frontier (config : Config) (store : Store) (entry : Path) (level : Nat)
    (seen near far : List Path) : Prop where
  distance_near : ∀ path ∈ near, config.Distance store entry level path
  distance_far : ∀ path ∈ far, config.Distance store entry (level + 1) path
  /-- What is no further than the level was seen. -/
  complete : ∀ {n path}, config.ReachesIn store entry n path → n ≤ level → path ∈ seen
  /-- What left the queue has imports that were seen. -/
  closed : ∀ path ∈ seen, path ∈ near ++ far ∨
    ∀ next, config.Imports store path next → next ∈ seen

namespace Frontier

variable {level : Nat} {seen near far : List Path}

theorem start : config.Frontier store entry 0 [entry] [entry] [] where
  distance_near := fun path hm => List.mem_singleton.mp hm ▸ distance_entry
  distance_far := fun _ hm => (nomatch hm)
  complete := fun h hle => by
    cases h with
    | entry => exact List.mem_singleton_self _
    | step => exact absurd hle (Nat.not_succ_le_zero _)
  closed := fun _ hm => .inl hm

/-- When a level is through, all of the next one was found. -/
theorem advance (h : config.Frontier store entry level seen [] far) :
    config.Frontier store entry (level + 1) seen far [] where
  distance_near := h.distance_far
  distance_far := fun _ hm => (nomatch hm)
  complete := fun {n path} hr hle => by
    rcases Nat.lt_or_eq_of_le hle with hlt | rfl
    · exact h.complete hr (Nat.le_of_lt_succ hlt)
    · cases hr with
      | @step _ importer _ hr hi =>
        rcases h.closed importer (h.complete hr (Nat.le_refl level)) with hm | hclosed
        · exact absurd ((h.distance_far importer hm).le hr) (Nat.not_succ_le_self level)
        · exact hclosed path hi
  closed := by
    simpa only [List.nil_append, List.append_nil] using h.closed

/-- What the first path of a level imports and was not seen is one import further. -/
theorem step (h : config.Frontier store entry level seen (path :: near) far)
    {found : List Path}
    (hfound : ∀ next, next ∈ found ↔ config.Imports store path next ∧ next ∉ seen) :
    config.Frontier store entry level (seen ++ found) near (far ++ found) where
  distance_near := fun other hm => h.distance_near other (List.mem_cons_of_mem _ hm)
  distance_far := fun other hm => by
    rcases List.mem_append.mp hm with hm | hm
    · exact h.distance_far other hm
    · obtain ⟨hi, hnew⟩ := (hfound other).mp hm
      refine ⟨(h.distance_near path List.mem_cons_self).reaches.step hi, fun {k} hr => ?_⟩
      exact Nat.lt_of_not_le fun hle => hnew (h.complete hr hle)
  complete := fun hr hle => List.mem_append_left _ (h.complete hr hle)
  closed := fun other hm => by
    have hseen : ∀ next, config.Imports store path next → next ∈ seen ++ found := fun next hi => by
      by_cases hm : next ∈ seen
      · exact List.mem_append_left _ hm
      · exact List.mem_append_right _ ((hfound next).mpr ⟨hi, hm⟩)
    rcases List.mem_append.mp hm with hm | hm
    · rcases h.closed other hm with hq | hclosed
      · rcases List.mem_cons.mp hq with rfl | hq
        · exact .inr hseen
        · rw [← List.append_assoc]
          exact .inl (List.mem_append_left _ hq)
      · exact .inr fun next hi => List.mem_append_left _ (hclosed next hi)
    · exact .inl (List.mem_append_right _ (List.mem_append_right _ hm))

/-- The first path of the queue is of the level, or begins the next one. -/
theorem exists_cons {queue : List Path} (h : config.Frontier store entry level seen near far)
    (hq : near ++ far = path :: queue) :
    ∃ level' near' far', level ≤ level' ∧ near' ++ far' = queue ∧
      config.Frontier store entry level' seen (path :: near') far' := by
  cases near with
  | nil =>
    obtain rfl : far = path :: queue := hq
    exact ⟨level + 1, queue, [], Nat.le_succ level, List.append_nil queue, h.advance⟩
  | cons first near =>
    obtain ⟨rfl, rfl⟩ := List.cons.inj hq
    exact ⟨level, near, far, Nat.le_refl level, rfl, h⟩

end Frontier

end Config

/-! ### The loop -/

/-- The dependencies that are not in a list, in their order. -/
def Module.unseen (m : Module) (seen : List Path) : List Path :=
  m.dependencies.filter fun dependency => !seen.contains dependency

namespace ModuleGraph

/-- The loop of a walk: the first path of the queue is transformed, and its dependencies are queued
unless they were seen. -/
inductive Walks (config : Config) (store : Store) :
    Memo → List Path → List Path → Memo → List Module → Prop
  | done (memo : Memo) (seen : List Path) : Walks config store memo seen [] memo []
  | step {memo last : Memo} {seen queue : List Path} {path : Path} {modules : List Module}
      (h : Walks config store (memo.transform config store path).1
        (seen ++ (memo.transform config store path).2.unseen seen)
        (queue ++ (memo.transform config store path).2.unseen seen) last modules) :
      Walks config store memo seen (path :: queue) last
        ((memo.transform config store path).2 :: modules)

variable {config : Config} {store : Store} {entry : Path}

theorem path_transform (memo : Memo) (path : Path) :
    (memo.transform config store path).2.path = path :=
  (memo.completes_complete _).path_eq.trans (Draft.path_ofPath config store path)

/-- What a module leads to follows from its file, whether it was remembered or has failed. -/
theorem unseen_transform (memo : Memo) (path : Path) (seen : List Path) :
    (memo.transform config store path).2.unseen seen = found config store seen path := by
  obtain ⟨output, he, -⟩ := memo.completes_complete (Draft.ofPath config store path)
  rw [Memo.transform, he, Draft.withOutput, Module.unseen, found]
  dsimp only
  rw [Draft.dependencies_ofPath]

/-- With fuel for every path of a closed list, the walk is the loop to its end. -/
theorem walks_draftsFrom {known : List Path}
    (hk : ∀ path ∈ known, ∀ next ∈ config.importedFiles store path, next ∈ known) {fuel : Nat}
    {done queue : List Path} (h : Fuelled known fuel done queue) (memo : Memo) :
    let walked := memo.completeAll (draftsFrom config store fuel (done ++ queue) queue)
    Walks config store memo (done ++ queue) queue walked.1 walked.2 := by
  induction fuel generalizing done queue memo with
  | zero =>
    obtain rfl := h.queue_eq_nil
    exact .done memo _
  | succ fuel ih =>
    cases queue with
    | nil => exact .done memo _
    | cons path queue =>
      have hrest := ih (h.step hk) (memo.transform config store path).1
      have hseen : done ++ [path] ++ (queue ++ found config store (done ++ path :: queue) path) =
          done ++ path :: queue ++ found config store (done ++ path :: queue) path := by simp
      rw [hseen, ← unseen_transform memo] at hrest
      have hdrafts : draftsFrom config store (fuel + 1) (done ++ path :: queue) (path :: queue) =
          Draft.ofPath config store path :: draftsFrom config store fuel
            (done ++ path :: queue ++
              (memo.transform config store path).2.unseen (done ++ path :: queue))
            (queue ++ (memo.transform config store path).2.unseen (done ++ path :: queue)) := by
        rw [draftsFrom, Draft.dependencies_ofPath, unseen_transform, found]
      rw [hdrafts]
      exact .step hrest

/-- From a frontier on, the loop meets files at distances that never decrease. -/
theorem Walks.exists_distances {memo last : Memo} {seen queue near far : List Path}
    {modules : List Module} {level : Nat} (h : Walks config store memo seen queue last modules)
    (hf : config.Frontier store entry level seen near far) (hq : near ++ far = queue) :
    ∃ distances : List Nat, distances.Pairwise (· ≤ ·) ∧ (∀ n ∈ distances, level ≤ n) ∧
      List.Forall₂ (config.Distance store entry) distances (modules.map (·.path)) := by
  induction h generalizing level near far with
  | done => exact ⟨[], .nil, fun _ hm => (nomatch hm), .nil⟩
  | @step memo last seen queue path modules _ ih =>
    obtain ⟨n, near', far', hle, rfl, hfrontier⟩ := hf.exists_cons hq
    have hunseen : ∀ next, next ∈ (memo.transform config store path).2.unseen seen ↔
        config.Imports store path next ∧ next ∉ seen := fun next => by
      rw [unseen_transform, mem_found_iff, Config.mem_importedFiles_iff_imports]
    obtain ⟨distances, hsorted, hlevel, hdistances⟩ :=
      ih (hfrontier.step hunseen) (List.append_assoc ..).symm
    refine ⟨n :: distances, .cons hlevel hsorted, fun k hm => ?_, ?_⟩
    · rcases List.mem_cons.mp hm with rfl | hm
      · exact hle
      · exact Nat.le_trans hle (hlevel k hm)
    · rw [List.map_cons, path_transform]
      exact .cons (hfrontier.distance_near path List.mem_cons_self) hdistances

/-- Whatever the memo holds, the loop of a walk ends. Its modules are what the entry reaches, each
once and the nearest first, beginning with the entry; a module that failed leads on like any other.
With plain extensions and an index name as every configuration that was read has, no file is met
under two paths. -/
theorem walk_exact (hs : store.Reachable) (config : Config) (memo : Memo) (entry : Path) :
    let walked := walk config store memo entry
    let order := walked.2.modules.map (·.path)
    Walks config store memo [entry] [entry] walked.1 walked.2.modules ∧ order.Nodup ∧
      (∀ path, path ∈ order ↔ ∃ n, config.ReachesIn store entry n path) ∧
      order.head? = some entry ∧
      (∃ distances : List Nat, distances.Pairwise (· ≤ ·) ∧
        List.Forall₂ (config.Distance store entry) distances order) ∧
      (∀ m ∈ walked.2.modules, ∀ next,
        next ∈ m.dependencies ↔ config.Imports store m.path next) ∧
      (store.isFile entry = true → ∀ path ∈ order, store.isFile path = true) ∧
      (entry.Canonical → Config.IsIndexBasename config.indexBasename →
        (∀ extension ∈ config.extensions, '/' ∉ extension.toList) →
        (order.map Path.segments).Nodup) := by
  intro walked order
  have hw := hs.wellFormed
  have hbf : config.BreadthFirst store entry order := breadthFirst_walk hw
  have hwalks : Walks config store memo [entry] [entry] walked.1 walked.2.modules :=
    walks_draftsFrom (importedFiles_subset hw config entry) (fuelled_start config store entry) memo
  refine ⟨hwalks, hbf.nodup, fun path => ?_, ?_, ?_, fun m hm next => ?_, fun he path hp => ?_,
    fun he hi hx => ?_⟩
  · rw [hbf.mem_iff, Config.reaches_iff_exists_reachesIn]
  · rw [hbf.eq, List.eraseDups_cons]
    rfl
  · obtain ⟨distances, hsorted, -, hdistances⟩ := hwalks.exists_distances .start rfl
    exact ⟨distances, hsorted, hdistances⟩
  · obtain ⟨output, he, -⟩ := completes_of_mem_walk hm
    have hdraft : m.dependencies = (Draft.ofPath config store m.path).dependencies :=
      congrArg Module.dependencies he
    rw [hdraft, Draft.dependencies_ofPath, List.mem_eraseDups,
      Config.mem_importedFiles_iff_imports]
  · exact ((hbf.mem_iff path).mp hp).isFile he
  · have hcanonical : ∀ path ∈ order, path.Canonical := fun path hp =>
      ((hbf.mem_iff path).mp hp).canonical_of_entry hw hi hx he
    refine List.Nodup.map_on (fun path hp other ho hsame => ?_) hbf.nodup
    rw [(hcanonical path hp).segments_eq, (hcanonical other ho).segments_eq] at hsame
    exact Path.ext_names hsame

/-- The entry and a file that it imports lead to each other, and another one is cut off in the
middle: what that one imports is met nevertheless, one import further than the rest. -/
theorem walk_exact_of_cycle :
    let store := ((Store.empty.attempt (.createFile "/App.jsx"
        "import A from './A';\nimport B from './B';\n")).attempt
      (.createFile "/A.jsx" "import C from './C';\nexport default (")).attempt
      (.createFile "/B.jsx" "import App from './App';\n")
    let store := store.attempt (.createFile "/C.js" "")
    let walked := walk {} store {} ⟨["App.jsx"]⟩
    let order := walked.2.modules.map (·.path)
    store.Reachable ∧
      walked.2.modules.map (fun m => (m.path, m.isOk)) =
        [(⟨["App.jsx"]⟩, true), (⟨["A.jsx"]⟩, false), (⟨["B.jsx"]⟩, true), (⟨["C.js"]⟩, true)] ∧
      Walks {} store {} [⟨["App.jsx"]⟩] [⟨["App.jsx"]⟩] walked.1 walked.2.modules ∧
      (∃ n, Config.ReachesIn {} store ⟨["App.jsx"]⟩ n ⟨["C.js"]⟩) ∧
      (∃ distances : List Nat, distances.Pairwise (· ≤ ·) ∧
        List.Forall₂ (Config.Distance {} store ⟨["App.jsx"]⟩) distances order) ∧
      (∀ path ∈ order, store.isFile path = true) ∧ (order.map Path.segments).Nodup := by
  intro store store'
  have hs : store'.Reachable :=
    .attempted _ (.attempted _ (.attempted _ (.attempted _ .empty)))
  obtain ⟨hwalks, -, hmem, -, hdistances, -, hfiles, hsegments⟩ :=
    walk_exact hs {} {} ⟨["App.jsx"]⟩
  have hmodules : (walk {} store' {} ⟨["App.jsx"]⟩).2.modules.map (fun m => (m.path, m.isOk)) =
      [(⟨["App.jsx"]⟩, true), (⟨["A.jsx"]⟩, false), (⟨["B.jsx"]⟩, true), (⟨["C.js"]⟩, true)] := by
    decide +kernel
  have hlast : ((⟨["C.js"]⟩ : Path), true) ∈
      (walk {} store' {} ⟨["App.jsx"]⟩).2.modules.map fun m => (m.path, m.isOk) := by
    rw [hmodules]
    decide
  obtain ⟨m, hm, hc⟩ := List.mem_map.mp hlast
  have hpath : m.path = ⟨["C.js"]⟩ := congrArg Prod.fst hc
  exact ⟨hs, hmodules, hwalks, (hmem _).mp (List.mem_map.mpr ⟨m, hm, hpath⟩), hdistances,
    hfiles (by decide +kernel),
    hsegments (by decide) (by decide) (by decide +kernel)⟩

end ModuleGraph

end LivePreview
