import Mathlib.Data.List.Forall2
import LivePreview.Proofs.Module.Memo
import LivePreview.Proofs.Preview.Cause

/-!
# The errors of a build

A build that fails names every entry point if none is a file, and otherwise tells of each module that
failed what its file comes to. Whatever a walk meets is a file and can be read under its path, so no
error is about a file that is missing.
-/
namespace LivePreview

/-! ### The error of a draft -/

/-- A file is missing, has an import that leads nowhere, or has a fault in its text, and the error is
about its own path. -/
theorem Draft.error_cases {config : Config} {store : Store} {path : Path} {error : ModuleError}
    (h : (Draft.ofPath config store path).output = .error error) :
    (error = .missing path ∧ ∃ cause, store.read path.text = .error cause) ∨
      (∃ cause location, error = .unresolved path cause location) ∨
      ∃ fault, error = .malformed path fault := by
  cases hr : store.read path.text with
  | error cause =>
    rw [Draft.output_of_missing hr] at h
    exact .inl ⟨(Except.error.inj h).symm, cause, rfl⟩
  | ok content =>
    cases hk : ModuleKind.ofPath config path with
    | script dialect =>
      rcases Draft.output_of_script hk hr with ⟨cause, location, hu⟩ | ⟨_, hc⟩
      · rw [hu] at h
        exact .inr (.inl ⟨_, _, (Except.error.inj h).symm⟩)
      · rw [hc, checkScript_eq_error_iff] at h
        obtain ⟨fault, _, rfl⟩ := h
        exact .inr (.inr ⟨_, rfl⟩)
    | json =>
      rw [Draft.output, Draft.ofPath, hr, hk] at h
      dsimp only [jsonModule] at h
      split at h
      · exact .inr (.inr ⟨_, (Except.error.inj h).symm⟩)
      · cases h
    | stylesheet => rw [Draft.output, Draft.ofPath, hr, hk] at h; cases h
    | asset => rw [Draft.output, Draft.ofPath, hr, hk] at h; cases h

theorem Draft.path_of_error {config : Config} {store : Store} {path : Path} {error : ModuleError}
    (h : (Draft.ofPath config store path).output = .error error) : error.path = path := by
  rcases Draft.error_cases h with ⟨rfl, -⟩ | ⟨cause, location, rfl⟩ | ⟨fault, rfl⟩ <;> rfl

/-- What can be read is not missing. -/
theorem Draft.ne_missing {config : Config} {store : Store} {path : Path} {content : String}
    {error : ModuleError} (hr : store.read path.text = .ok content)
    (h : (Draft.ofPath config store path).output = .error error) (other : Path) :
    error ≠ .missing other := by
  rcases Draft.error_cases h with ⟨-, cause, hcause⟩ | ⟨cause, location, rfl⟩ | ⟨fault, rfl⟩
  · rw [hr] at hcause
    cases hcause
  · nofun
  · nofun

/-! ### The errors of a walk -/

namespace Memo

theorem exists_draft_of_error {memo : Memo} {drafts : List Draft} {m : Module}
    {error : ModuleError} (hm : m ∈ (memo.completeAll drafts).2) (h : m.output = .error error) :
    ∃ draft ∈ drafts, draft.path = m.path ∧ draft.output = .error error := by
  obtain ⟨draft, hd, reached, rfl, -⟩ := exists_complete_of_mem hm
  exact ⟨draft, hd, (reached.completes_complete draft).path_eq.symm, output_of_error h⟩

end Memo

namespace Module

/-- The module has no code, for the reason that its file gives, and the file is there. -/
structure FailsWith (config : Config) (store : Store) (m : Module) (cause : ModuleError) :
    Prop where
  output : m.output = .error cause
  path : cause.path = m.path
  draft : (Draft.ofPath config store m.path).output = .error cause
  found : ∀ path, cause ≠ .missing path

/-- There is one error for each module without code, in the order of the modules. -/
theorem forall₂_error? {R : Module → ModuleError → Prop} {modules : List Module}
    (h : ∀ m ∈ modules, ∀ error, m.output = .error error → R m error) :
    List.Forall₂ R (modules.filter fun m => !m.isOk) (modules.filterMap error?) := by
  induction modules with
  | nil => exact .nil
  | cons m rest ih =>
    obtain ⟨hm, hrest⟩ := List.forall_mem_cons.mp h
    cases ho : m.output with
    | ok code =>
      have hok : m.isOk = true := by rw [isOk, ho]; rfl
      have hnone : m.error? = none := by rw [error?, ho]
      rw [List.filter_cons_of_neg (by simp [hok]), List.filterMap_cons_none hnone]
      exact ih hrest
    | error error =>
      have hok : m.isOk = false := by rw [isOk, ho]; rfl
      have hsome : m.error? = some error := by rw [error?, ho]
      rw [List.filter_cons_of_pos (by simp [hok]), List.filterMap_cons_some hsome]
      exact .cons (hm error ho) (ih hrest)

end Module

/-- From a file on, a walk meets files alone, and what failed has an error of its own. -/
theorem ModuleGraph.failsWith_of_mem_walk {config : Config} {store : Store} {memo : Memo}
    {entry : Path} (hw : store.WellFormed) (he : store.isFile entry = true) {m : Module}
    (hm : m ∈ (walk config store memo entry).2.modules) {error : ModuleError}
    (h : m.output = .error error) : m.FailsWith config store error := by
  have hdraft : (Draft.ofPath config store m.path).output = .error error := by
    have hcompleted : m ∈ (memo.completeAll (drafts config store entry)).2 := hm
    obtain ⟨draft, hd, hpath, ho⟩ := Memo.exists_draft_of_error hcompleted h
    obtain ⟨path, rfl⟩ := exists_path_of_mem_drafts hd
    rw [Draft.path_ofPath] at hpath
    rwa [← hpath]
  have hreach : config.Reaches store entry m.path :=
    ((breadthFirst_walk hw).mem_iff m.path).mp (List.mem_map.mpr ⟨m, hm, rfl⟩)
  obtain ⟨content, hread⟩ := hw.exists_read_of_isFile (hreach.isFile he)
  exact ⟨h, Draft.path_of_error hdraft, hdraft, Draft.ne_missing hread hdraft⟩

/-! ### The errors of a build -/

theorem Config.entryFile?_eq_none_iff {config : Config} {store : Store} :
    config.entryFile? store = none ↔ ∀ path ∈ config.entryPoints, store.isFile path = false := by
  rw [entryFile?, List.find?_eq_none]
  simp

namespace Preview

variable {config : Config} {preview : Preview} {store : Store}

/-- The errors of a build: all entry points together if none of them is a file, and otherwise one for
each module without code among what the entry reaches, in the order in which they are met. -/
structure ErrorsExact (preview : Preview) (config : Config) (store : Store)
    (errors : List BuildError) : Prop where
  missing_iff : errors = [.missingEntry config.entryPoints] ↔
    ∀ path ∈ config.entryPoints, store.isFile path = false
  modules : ∀ entry, config.entryFile? store = some entry →
    let modules := (preview.graph store entry).modules
    config.BreadthFirst store entry (modules.map (·.path)) ∧
      ∃ causes, errors = causes.map .module ∧
        List.Forall₂ (Module.FailsWith config store) (modules.filter fun m => !m.isOk) causes

/-- The errors that an assembly finds are those of the modules that failed. -/
theorem errorsExact_of_entry (h : preview.registry.Resting) (hw : store.WellFormed) {entry : Path}
    (he : preview.config.entryFile? store = some entry) :
    preview.ErrorsExact preview.config store
      ((Assembly.ofGraph preview.registry (preview.graph store entry)).errors.map .module) := by
  rw [(Assembly.ofGraph_spec h.bounded nodup_graph).2.2]
  constructor
  · rw [← Config.entryFile?_eq_none_iff, he]
    refine iff_of_false (fun heq => ?_) nofun
    have hm : BuildError.missingEntry preview.config.entryPoints ∈
        ((preview.graph store entry).modules.filterMap Module.error?).map BuildError.module :=
      heq ▸ List.mem_singleton_self _
    obtain ⟨cause, -, hcause⟩ := List.mem_map.mp hm
    cases hcause
  · intro other ho
    obtain rfl := Option.some.inj (he.symm.trans ho)
    refine ⟨ModuleGraph.breadthFirst_walk hw, _, rfl, Module.forall₂_error? fun m hm error hf => ?_⟩
    exact ModuleGraph.failsWith_of_mem_walk hw (Config.isFile_of_entryFile? he) hm hf

/-- A build fails if no entry point is a file, and whenever one fails, its errors are exact. -/
theorem errors_exact (h : Reachable config preview) (hs : store.Reachable) :
    ((∀ path ∈ config.entryPoints, store.isFile path = false) →
      (preview.build store).status = .failed [.missingEntry config.entryPoints] none) ∧
    ∀ errors report, (preview.build store).status = .failed errors report →
      preview.ErrorsExact config store errors := by
  obtain rfl := h.config_eq
  rw [← Config.entryFile?_eq_none_iff]
  have ho := preview.outcome_build store
  generalize preview.build store = built at ho ⊢
  cases ho with
  | missing he =>
    refine ⟨fun _ => rfl, fun errors report hf => ?_⟩
    obtain ⟨rfl, -⟩ := BuildStatus.failed.inj hf
    refine ⟨iff_of_true rfl (Config.entryFile?_eq_none_iff.mp he), fun entry hsome => ?_⟩
    cases he.symm.trans hsome
  | @ready entry found he hr hn =>
    exact ⟨fun hnone => (nomatch he.symm.trans hnone), fun errors report hf => nomatch hf⟩
  | @failed entry he found hr =>
    refine ⟨fun hnone => (nomatch he.symm.trans hnone), fun errors report hf => ?_⟩
    obtain ⟨rfl, -⟩ := BuildStatus.failed.inj hf
    exact errorsExact_of_entry h.resting hs.wellFormed he

/-- Two files import each other and a third one, which was broken after a build, and one of them has
an import that leads nowhere. The entry is remembered, and either of the others has one error. -/
theorem errors_exact_of_cycle :
    let intact := ((Store.empty.attempt (.createFile "/App.jsx"
        "import './b';\nimport './c';\n")).attempt
      (.createFile "/b.js" "import './App';\nimport './c';\n")).attempt
      (.createFile "/c.js" "run();\n")
    let store := (intact.attempt (.createFile "/b.js"
        "import './App';\nimport './c';\nimport './d';\n")).attempt
      (.createFile "/c.js" "run(;\n")
    let preview := Preview.build { config := {} } intact
    let errors := [BuildError.module (.unresolved ⟨["b.js"]⟩ ⟨"./d", ⟨["b.js"]⟩⟩ ⟨3, 9⟩),
      .module (.malformed ⟨["c.js"]⟩ (.script ⟨.unclosed (.bracket .round), some ⟨1, 4⟩⟩))]
    Reachable {} preview ∧ store.Reachable ∧
      ∃ report, (preview.build store).status = .failed errors (some report) ∧
        report.memo.hits = 1 ∧ preview.ErrorsExact {} store errors := by
  intro intact store preview errors
  have hp : Reachable {} preview := .built intact .new
  have hs : store.Reachable :=
    .attempted _ (.attempted _ (.attempted _ (.attempted _ (.attempted _ .empty))))
  let report := (preview.build store).status.report?.get (by decide +kernel)
  have hf : (preview.build store).status = .failed errors (some report) := by decide +kernel
  have hhits : report.memo.hits = 1 := by decide +kernel
  exact ⟨hp, hs, report, hf, hhits, (errors_exact hp hs).2 _ _ hf⟩

end Preview

end LivePreview
