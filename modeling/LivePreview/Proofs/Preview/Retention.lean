import LivePreview.Proofs.Preview.Build
import LivePreview.Proofs.Preview.Incremental
import LivePreview.Proofs.Preview.Tree

/-!
# What a memo keeps

A build leaves a memo with the keys of the scripts that passed in it, whatever the memo held before.
While the drafts are completed entries are only added, and no key of a script that failed is among
them unless another script with that key passed; at the end all keys that were not met are forgotten.
So a second build of the same tree finds each script that passed and checks those that failed again.
-/
namespace LivePreview

/-- The key of the script at the path, if all of its imports can be resolved. -/
def Config.memoKey? (config : Config) (store : Store) (path : Path) : Option MemoKey :=
  (config.hashed? store path).map fun (content, imports) =>
    { kind := ModuleKind.ofPath config path
      content := .ofContent content
      imports := .ofImports imports }

theorem Draft.key?_ofPath (config : Config) (store : Store) (path : Path) :
    (ofPath config store path).key? = config.memoKey? store path := by
  rw [key?]
  cases hb : (ofPath config store path).body with
  | script dialect key linked =>
    obtain ⟨content, h⟩ := isScript_of_body hb
    rw [h.body_eq] at hb
    obtain ⟨-, rfl, -⟩ := DraftBody.script.inj hb
    rw [Config.memoKey?, h.hashed?_eq, Option.map_some, h.kind]
  | done output =>
    rw [Config.memoKey?, Config.hashed?]
    cases hk : ModuleKind.ofPath config path with
    | script dialect =>
      cases hr : store.read path.text with
      | error e => rfl
      | ok content =>
        dsimp only
        cases hu : config.firstUnresolved? store path (Source.importSites content dialect) with
        | some site => rfl
        | none =>
          have h : config.IsScript store path dialect content := ⟨hk, hr, hu⟩
          rw [h.body_eq] at hb
          cases hb
    | _ => rfl

namespace Memo

variable {memo next last : Memo} {draft : Draft} {drafts others : List Draft} {m : Module}

/-! ### The drafts of a run -/

theorem mem_keys_finishBuild_iff {key : MemoKey} :
    key ∈ memo.finishBuild.keys ↔ key ∈ memo.keys ∧ key ∈ memo.used := by
  simp only [keys, finishBuild, List.mem_map, List.mem_filter, List.contains_iff_mem]
  constructor
  · rintro ⟨entry, ⟨hm, hu⟩, rfl⟩
    exact ⟨⟨entry, hm, rfl⟩, hu⟩
  · rintro ⟨⟨entry, hm, rfl⟩, hu⟩
    exact ⟨entry, ⟨hm, hu⟩, rfl⟩

theorem get?_finishBuild {key : MemoKey} (hu : key ∈ memo.used) :
    Table.get? key memo.finishBuild.entries = Table.get? key memo.entries := by
  have hfilter := Table.get?_filter (fun key => memo.used.contains key) key memo.entries
  rwa [if_pos (List.contains_iff_mem.mpr hu)] at hfilter

/-- A draft and its module, beside the memo at the start of a run and at its end. -/
structure Kept (memo last : Memo) (draft : Draft) (m : Module) : Prop where
  completes : draft.Completes m
  /-- What was remembered at the start is a hit. -/
  known : ∀ key ∈ memo.keys, draft.key? = some key → m.isOk = true
  /-- What passed is remembered at the end. -/
  kept : ∀ key code, draft.key? = some key → m.output = .ok code →
    Table.get? key last.entries = some code
  failed : ∀ error, m.output = .error error → draft.output = .error error

theorem kept_complete (memo : Memo) (draft : Draft) :
    memo.Kept (memo.complete draft).1 draft (memo.complete draft).2 := by
  refine ⟨memo.completes_complete draft, fun key hm hk => ?_, fun key code hk ho => ?_,
    fun error => output_of_error⟩
  all_goals
    have hstep := step_complete memo draft
    generalize (memo.complete draft).1 = next, (memo.complete draft).2 = m at *
  · obtain ⟨code, hg⟩ := mem_keys_iff.mp hm
    cases hstep with
    | done hb => cases (Draft.key?_of_done hb).symm.trans hk
    | failed hk' hnone _ =>
      obtain rfl := Option.some.inj (hk'.symm.trans hk)
      cases hg.symm.trans hnone
    | _ => rfl
  · cases hstep with
    | done hb => cases (Draft.key?_of_done hb).symm.trans hk
    | hit hk' hg =>
      obtain rfl := Option.some.inj (hk'.symm.trans hk)
      obtain rfl := Except.ok.inj ho
      exact hg
    | passed hk' hg _ =>
      obtain rfl := Option.some.inj (hk'.symm.trans hk)
      obtain rfl := Except.ok.inj ho
      rw [Table.get?_append, hg]
      simp [Table.get?]
    | failed _ _ _ => cases ho

theorem exists_kept_of_mem (h : m ∈ (memo.completeAll drafts).2) :
    ∃ draft ∈ drafts, memo.Kept (memo.completeAll drafts).1 draft m := by
  obtain ⟨draft, hd, reached, rfl, hfirst, hlast⟩ := exists_complete_of_mem h
  have hkept := kept_complete reached draft
  refine ⟨draft, hd, hkept.completes, fun key hm hk => ?_, fun key code hk ho => ?_, hkept.failed⟩
  · obtain ⟨code, hg⟩ := mem_keys_iff.mp hm
    exact hkept.known key (mem_keys_iff.mpr ⟨code, get?_of_prefix hfirst hg⟩) hk
  · exact get?_of_prefix hlast (hkept.kept key code hk ho)

/-! ### The same drafts again -/

/-- The memo knows the draft if it passed, and the key is free if it failed. -/
structure Recalls (memo : Memo) (draft : Draft) (m : Module) : Prop where
  completes : draft.Completes m
  hit : ∀ key code, draft.key? = some key → m.output = .ok code →
    Table.get? key memo.entries = some code
  miss : ∀ key error, draft.key? = some key → m.output = .error error →
    Table.get? key memo.entries = none ∧ draft.output = .error error

theorem Recalls.of_entries_eq (h : memo.Recalls draft m) (he : next.entries = memo.entries) :
    next.Recalls draft m := by
  refine ⟨h.completes, ?_, ?_⟩ <;> rw [he]
  · exact h.hit
  · exact h.miss

/-- A draft that the memo recalls becomes the module again, by a hit if it passed and by a check if
it failed. -/
theorem Recalls.complete (h : memo.Recalls draft m) :
    (memo.complete draft).2 = m ∧ (memo.complete draft).1.entries = memo.entries ∧
      (memo.complete draft).1.hits =
        memo.hits + (if draft.key?.isSome && m.isOk then 1 else 0) ∧
      (memo.complete draft).1.misses =
        memo.misses + (if draft.key?.isSome && !m.isOk then 1 else 0) := by
  obtain ⟨output, rfl, hknown⟩ := h.completes
  have hstep := step_complete memo draft
  generalize (memo.complete draft).1 = next, (memo.complete draft).2 = found at *
  cases output with
  | ok known =>
    cases hstep with
    | done hb =>
      obtain rfl := hknown _ hb
      simp [Draft.key?_of_done hb]
    | hit hk hg =>
      obtain rfl := Option.some.inj (hg.symm.trans (h.hit _ known hk rfl))
      simp [hk, Module.isOk, Draft.withOutput, Except.toOption]
    | passed hk hg _ => cases hg.symm.trans (h.hit _ known hk rfl)
    | failed hk hg _ => cases hg.symm.trans (h.hit _ known hk rfl)
  | error known =>
    cases hstep with
    | done hb =>
      obtain rfl := hknown _ hb
      simp [Draft.key?_of_done hb]
    | hit hk hg => cases hg.symm.trans (h.miss _ known hk rfl).1
    | passed hk _ ho => cases ho.symm.trans (h.miss _ known hk rfl).2
    | failed hk _ ho =>
      obtain rfl := Except.error.inj (ho.symm.trans (h.miss _ known hk rfl).2)
      simp [hk, Module.isOk, Draft.withOutput, Except.toOption]

/-- A run over drafts that the memo recalls gives their modules again. -/
theorem completeAll_of_recalls {draftOf : Module → Draft} {modules : List Module}
    (h : ∀ m ∈ modules, memo.Recalls (draftOf m) m) :
    (memo.completeAll (modules.map draftOf)).2 = modules ∧
      (memo.completeAll (modules.map draftOf)).1.hits =
        memo.hits + modules.countP (fun m => (draftOf m).key?.isSome && m.isOk) ∧
      (memo.completeAll (modules.map draftOf)).1.misses =
        memo.misses + modules.countP (fun m => (draftOf m).key?.isSome && !m.isOk) := by
  -- The entries stay the same on the way, so what the memo recalls at the start it recalls later.
  induction modules generalizing memo with
  | nil => exact ⟨rfl, rfl, rfl⟩
  | cons m rest ih =>
    obtain ⟨hm, hrest⟩ := List.forall_mem_cons.mp h
    obtain ⟨hmodule, hentries, hhits, hmisses⟩ := hm.complete
    obtain ⟨hmodules, hhits', hmisses'⟩ := ih fun other ho => (hrest other ho).of_entries_eq hentries
    rw [List.map_cons, completeAll]
    dsimp only
    rw [hmodule, hmodules, hhits', hmisses', hhits, hmisses, List.countP_cons, List.countP_cons]
    exact ⟨rfl, by omega, by omega⟩

end Memo

/-! ### A walk -/

namespace ModuleGraph

variable {config : Config} {store : Store} {memo : Memo} {entry : Path} {m : Module}

theorem kept_of_mem_walk (h : m ∈ (walk config store memo entry).2.modules) :
    memo.Kept (walk config store memo entry).1 (.ofPath config store m.path) m := by
  have hm : m ∈ (memo.completeAll (drafts config store entry)).2 := h
  obtain ⟨draft, hd, hkept⟩ := Memo.exists_kept_of_mem hm
  obtain ⟨path, rfl⟩ := exists_path_of_mem_drafts hd
  rw [hkept.completes.path_eq, Draft.path_ofPath]
  exact hkept

/-- The drafts of a walk are told by the paths of its modules. -/
theorem map_ofPath_walk (config : Config) (store : Store) (memo : Memo) (entry : Path) :
    (walk config store memo entry).2.modules.map (fun m => Draft.ofPath config store m.path) =
      drafts config store entry := by
  have hpaths : (walk config store memo entry).2.modules.map (·.path) = _ :=
    memo.map_path_completeAll (drafts config store entry)
  rw [← Function.comp_def, ← List.map_map, hpaths, List.map_map]
  refine (List.map_congr_left fun draft hd => ?_).trans (List.map_id _)
  obtain ⟨path, rfl⟩ := exists_path_of_mem_drafts hd
  rw [Function.comp_apply, Draft.path_ofPath]
  rfl

theorem exists_of_mem_drafts (memo : Memo) {draft : Draft} (h : draft ∈ drafts config store entry) :
    ∃ m ∈ (walk config store memo entry).2.modules, Draft.ofPath config store m.path = draft := by
  rwa [← map_ofPath_walk config store memo entry, List.mem_map] at h

theorem advances_walk (config : Config) (store : Store) (memo : Memo) (entry : Path) :
    memo.Advances (drafts config store entry) (walk config store memo entry).1 :=
  memo.advances_completeAll _

theorem mem_used_walk_iff (hu : memo.used = []) {key : MemoKey} :
    key ∈ (walk config store memo entry).1.used ↔
      ∃ m ∈ (walk config store memo entry).2.modules, config.memoKey? store m.path = some key := by
  rw [(advances_walk config store memo entry).used, hu, ← map_ofPath_walk config store memo entry]
  simp only [List.not_mem_nil, false_or, List.mem_map, exists_exists_and_eq_and, Draft.key?_ofPath]

/-- The keys that a walk leaves are those of the scripts that passed. -/
theorem mem_keys_walk_iff (hu : memo.used = []) {key : MemoKey} :
    key ∈ (walk config store memo entry).1.finishBuild.keys ↔
      ∃ m ∈ (walk config store memo entry).2.modules, m.isOk = true ∧
        config.memoKey? store m.path = some key := by
  rw [Memo.mem_keys_finishBuild_iff, mem_used_walk_iff hu]
  constructor
  · rintro ⟨hkey, m, hm, hk⟩
    -- A key from before belongs to a hit, and a new one to a script that passed.
    rcases (advances_walk config store memo entry).added key hkey with hknown | hadded
    · exact ⟨m, hm, (kept_of_mem_walk hm).known key hknown (by rw [Draft.key?_ofPath, hk]), hk⟩
    · obtain ⟨draft, hd, hk', code, ho⟩ := hadded
      obtain ⟨m', hm', rfl⟩ := exists_of_mem_drafts memo hd
      refine ⟨m', hm', ?_, by rwa [Draft.key?_ofPath] at hk'⟩
      cases houtput : m'.output with
      | ok _ => rw [Module.isOk, houtput]; rfl
      | error error =>
        have hfailed := (kept_of_mem_walk hm').failed error houtput
        rw [ho] at hfailed
        cases hfailed
  · rintro ⟨m, hm, hok, hk⟩
    refine ⟨?_, m, hm, hk⟩
    cases houtput : m.output with
    | ok code =>
      have hkept := (kept_of_mem_walk hm).kept key code (by rw [Draft.key?_ofPath, hk]) houtput
      exact Memo.mem_keys_iff.mpr ⟨code, hkept⟩
    | error error =>
      rw [Module.isOk, houtput] at hok
      cases hok

/-- Where keys tell the drafts of a walk, the memo that it leaves recalls them all. -/
theorem recalls_of_mem_walk {known : Draft → Prop} (ha : KeysAgree known)
    (hd : ∀ draft ∈ drafts config store entry, known draft) (hu : memo.used = [])
    (h : m ∈ (walk config store memo entry).2.modules) :
    (walk config store memo entry).1.finishBuild.Recalls (.ofPath config store m.path) m := by
  have hkept := kept_of_mem_walk h
  have hdraft : Draft.ofPath config store m.path ∈ drafts config store entry := by
    rw [← map_ofPath_walk config store memo entry]
    exact List.mem_map_of_mem h
  have hget : ∀ key, (Draft.ofPath config store m.path).key? = some key →
      Table.get? key (walk config store memo entry).1.finishBuild.entries =
        Table.get? key (walk config store memo entry).1.entries := by
    intro key hk
    rw [Draft.key?_ofPath] at hk
    exact Memo.get?_finishBuild ((mem_used_walk_iff hu).mpr ⟨m, h, hk⟩)
  refine ⟨hkept.completes, fun key code hk ho => ?_, fun key error hk ho => ?_⟩
  · rw [hget key hk]
    exact hkept.kept key code hk ho
  · have hfailed := hkept.failed error ho
    refine ⟨?_, hfailed⟩
    rw [hget key hk]
    -- An entry for the key would come from a script that passed, and so would this one have.
    by_contra hsome
    obtain ⟨code, hg⟩ := Option.ne_none_iff_exists'.mp hsome
    have hkey := Memo.mem_keys_iff.mpr ⟨code, hg⟩
    rcases (advances_walk config store memo entry).added key hkey with hknown | hadded
    · have hok := hkept.known key hknown hk
      rw [Module.isOk, ho] at hok
      cases hok
    · obtain ⟨other, hother, hk', code', hpassed⟩ := hadded
      rw [ha.output_eq (hd _ hdraft) (hd other hother) hk hk' hpassed] at hfailed
      cases hfailed

end ModuleGraph

/-! ### Builds -/

namespace Preview

variable {config : Config} {preview : Preview} {store : Store} {entry : Path}

/-- Whatever a build comes to, the memo is that of its walk. -/
theorem memo_build (he : preview.config.entryFile? store = some entry) :
    (preview.build store).memo =
      (ModuleGraph.walk preview.config store preview.memo.startBuild entry).1.finishBuild := by
  rw [build_eq_conclude he, conclude]
  split <;> rfl

theorem memo_build_of_missing (he : preview.config.entryFile? store = none) :
    (preview.build store).memo = preview.memo := by
  have hconfig : preview.start.config = preview.config := rfl
  rw [build, hconfig, he]
  rfl

theorem Reachable.nodup_keys (h : Reachable config preview) : preview.memo.keys.Nodup := by
  induction h with
  | new => exact List.nodup_nil
  | watched store _ ih => exact ih
  | refreshed _ ih => exact ih
  | @collected preview store _ ih =>
    rcases preview.collectChanges_eq store with he | he <;> rw [he] <;> exact ih
  | @built preview store _ ih =>
    cases he : preview.config.entryFile? store with
    | none => rwa [memo_build_of_missing he]
    | some entry =>
      rw [memo_build he]
      have hwalk := ModuleGraph.advances_walk preview.config store preview.memo.startBuild entry
      exact (hwalk.nodup ih).sublist (List.filter_sublist.map Prod.fst)

/-- The modules and the counts of a build of a tree that was built just before. -/
theorem build_again (hc : preview.config = config) (hr : store.Reachable)
    (he : config.entryFile? store = some entry) (hn : NoCollisions (config.hashed store)) :
    ((preview.build store).graph store entry).modules = (preview.graph store entry).modules ∧
      ((preview.build store).build store).memo.hits = (preview.graph store entry).modules.countP
        (fun m => (config.memoKey? store m.path).isSome && m.isOk) ∧
      ((preview.build store).build store).memo.misses = (preview.graph store entry).modules.countP
        (fun m => (config.memoKey? store m.path).isSome && !m.isOk) := by
  subst hc
  have ha : KeysAgree (preview.config.Meets [store]) := by
    refine Config.keysAgree_meets ?_ ?_
    · rintro other hm
      obtain rfl := List.mem_singleton.mp hm
      exact hr
    · rwa [List.flatMap_singleton]
  have hd : ∀ draft ∈ ModuleGraph.drafts preview.config store entry,
      preview.config.Meets [store] draft :=
    fun draft hm => ⟨store, List.mem_singleton_self store, entry, he, hm⟩
  have hrecalls : ∀ m ∈ (preview.graph store entry).modules,
      (preview.build store).memo.startBuild.Recalls (.ofPath preview.config store m.path) m := by
    intro m hm
    have hleft := ModuleGraph.recalls_of_mem_walk ha hd rfl hm
    rw [← memo_build he] at hleft
    exact hleft.of_entries_eq rfl
  obtain ⟨hmodules, hhits, hmisses⟩ := Memo.completeAll_of_recalls hrecalls
  have hdrafts : (preview.graph store entry).modules.map
      (fun m => Draft.ofPath preview.config store m.path) =
        ModuleGraph.drafts preview.config store entry :=
    ModuleGraph.map_ofPath_walk preview.config store preview.memo.startBuild entry
  rw [hdrafts] at hmodules hhits hmisses
  simp only [Draft.key?_ofPath] at hhits hmisses
  have hconfig := config_build preview store
  have hzero : (preview.build store).memo.startBuild.hits = 0 ∧
      (preview.build store).memo.startBuild.misses = 0 := ⟨rfl, rfl⟩
  rw [hzero.1, Nat.zero_add] at hhits
  rw [hzero.2, Nat.zero_add] at hmisses
  have hentry : (preview.build store).config.entryFile? store = some entry := by rwa [hconfig]
  rw [memo_build hentry, graph, hconfig]
  exact ⟨hmodules, hhits, hmisses⟩

/-- Every script whose imports can be resolved is a hit or a miss of the build. -/
theorem count_build (he : preview.config.entryFile? store = some entry) :
    (preview.build store).memo.hits + (preview.build store).memo.misses =
      (preview.graph store entry).modules.countP
        fun m => (preview.config.memoKey? store m.path).isSome := by
  have hcount := (ModuleGraph.advances_walk preview.config store preview.memo.startBuild entry).count
  rw [← ModuleGraph.map_ofPath_walk preview.config store preview.memo.startBuild entry,
    List.countP_map] at hcount
  simp only [Function.comp_def, Draft.key?_ofPath] at hcount
  rw [memo_build he]
  exact hcount.trans (Nat.zero_add _)

/-- The memo holds the last build: each key once, those of the scripts that the entry reached and that
passed, whatever builds there were before. Scripts whose imports can be resolved are its hits and
misses. Building the tree again gives the same modules and checks those alone that failed, provided
that no fingerprints of what is hashed collide. Without an entry the memo stays as it is. -/
theorem memo_exact (hp : preview.Reachable config) (hr : store.Reachable) :
    (config.entryFile? store = none → (preview.build store).memo = preview.memo) ∧
    ∀ entry, config.entryFile? store = some entry →
      let modules := (preview.graph store entry).modules
      let after := preview.build store
      ((modules.map (·.path)).Nodup ∧
        ∀ path, path ∈ modules.map (·.path) ↔ config.Reaches store entry path) ∧
      (after.memo.keys.Nodup ∧ ∀ key, key ∈ after.memo.keys ↔
        ∃ m ∈ modules, m.isOk = true ∧ config.memoKey? store m.path = some key) ∧
      after.memo.hits + after.memo.misses =
        modules.countP (fun m => (config.memoKey? store m.path).isSome) ∧
      (NoCollisions (config.hashed store) → ∀ again : Store, again.root = store.root →
        (after.graph again entry).modules = modules ∧
        (after.build again).memo.misses =
          modules.countP (fun m => (config.memoKey? store m.path).isSome && !m.isOk) ∧
        (after.build again).memo.hits =
          modules.countP (fun m => (config.memoKey? store m.path).isSome && m.isOk)) := by
  have hconfig := hp.config_eq
  have hnodup := (hp.built store).nodup_keys
  subst hconfig
  refine ⟨memo_build_of_missing, fun entry he => ⟨⟨ModuleGraph.nodup_walk, ?_⟩, ⟨hnodup, ?_⟩,
    count_build he, fun hn again ha => ?_⟩⟩
  · exact (ModuleGraph.breadthFirst_walk hr.wellFormed).mem_iff
  · intro key
    rw [memo_build he]
    exact ModuleGraph.mem_keys_walk_iff rfl
  · obtain ⟨hmodules, hhits, hmisses⟩ := build_again rfl hr he hn
    have hgraph :
        (preview.build store).graph again entry = (preview.build store).graph store entry := by
      rw [graph, graph, ModuleGraph.walk, ModuleGraph.walk, ModuleGraph.drafts_of_root_eq ha]
    rw [hgraph, build_of_root_eq ha]
    exact ⟨hmodules, hmisses, hhits⟩

/-- Of two scripts that the entry imports one has a bracket that is left open. It is checked again,
and the other two are not. -/
theorem memo_exact_of_failure :
    let first := Store.empty.attempt (.createFile "/App.jsx" "run();\n")
    let store := ((first.attempt (.updateFile "/App.jsx" "import './a';\nimport './b';\n")).attempt
      (.createFile "/a.js" "run(\n")).attempt (.createFile "/b.js" "go();\n")
    let preview := Preview.build { config := {} } first
    preview.Reachable {} ∧ store.Reachable ∧
      Config.entryFile? {} store = some ⟨["App.jsx"]⟩ ∧ NoCollisions (Config.hashed {} store) ∧
      (∀ key, key ∈ (preview.build store).memo.keys ↔
        ∃ m ∈ (preview.graph store ⟨["App.jsx"]⟩).modules,
          m.isOk = true ∧ Config.memoKey? {} store m.path = some key) ∧
      ((preview.build store).build store).memo.misses = 1 ∧
      ((preview.build store).build store).memo.hits = 2 := by
  intro first store preview
  have hfirst : first.Reachable := .attempted _ .empty
  have hr : store.Reachable := .attempted _ (.attempted _ (.attempted _ hfirst))
  have hp : preview.Reachable {} := .built first .new
  have he : Config.entryFile? {} store = some ⟨["App.jsx"]⟩ := by decide +kernel
  have hn : NoCollisions (Config.hashed {} store) := by decide +kernel
  obtain ⟨-, ⟨-, hkeys⟩, -, hagain⟩ := (memo_exact hp hr).2 _ he
  obtain ⟨-, hmisses, hhits⟩ := hagain hn store rfl
  have hcounts : (preview.graph store ⟨["App.jsx"]⟩).modules.map
      (fun m => ((Config.memoKey? {} store m.path).isSome, m.isOk)) =
        [(true, true), (true, false), (true, true)] := by decide +kernel
  have hfailed := congrArg (List.countP fun checked => checked.1 && !checked.2) hcounts
  have hpassed := congrArg (List.countP fun checked => checked.1 && checked.2) hcounts
  rw [List.countP_map] at hfailed hpassed
  exact ⟨hp, hr, he, hn, hkeys, hmisses.trans hfailed, hhits.trans hpassed⟩

end Preview

end LivePreview
