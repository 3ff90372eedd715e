import LivePreview.Proofs.Config
import LivePreview.Proofs.Preview.ImportMap

/-!
# Why a build fails

A build is ready exactly when it has an entry file, everything that this reaches became a module,
and the entry has a handle. A stylesheet that no code imports has none: a build that starts at one
fails although it finds no error. `failure_has_cause` says that no other build does.
-/
namespace LivePreview

theorem Module.error?_eq_none_iff {m : Module} :
    m.error? = none ↔ ∃ code, m.output = .ok code := by
  rw [error?]
  cases m.output <;> simp

/-! ### Stylesheets as entries -/

namespace Config

variable {config : Config} {store : Store} {entry path : Path}

theorem imports_of_stylesheet (hk : ModuleKind.ofPath config path = .stylesheet) :
    config.imports store path = [] := by
  rw [imports, hk]

/-- A stylesheet reaches nothing else. -/
theorem Reaches.eq_of_stylesheet (hk : ModuleKind.ofPath config entry = .stylesheet)
    (h : config.Reaches store entry path) : path = entry := by
  induction h with
  | entry => rfl
  | step _ hn ih =>
    rw [ih, importedFiles, imports_of_stylesheet hk] at hn
    cases hn

/-- Only a stylesheet starts a build without being a module of it. -/
theorem hasModule_entry_iff :
    config.HasModule store entry entry ↔ ModuleKind.ofPath config entry ≠ .stylesheet := by
  refine ⟨fun ⟨_, h⟩ hk => ?_, fun hk => ⟨.entry, .inl hk⟩⟩
  obtain ⟨importer, hi, link, hl, -⟩ := h.resolve_left (not_not_intro hk)
  rw [hi.eq_of_stylesheet hk, imports_of_stylesheet hk] at hl
  cases hl

end Config

namespace Preview

variable {config : Config} {preview : Preview} {store : Store} {entry : Path}

/-- Every file that the entry reaches becomes a module without error. -/
def Transforms (preview : Preview) (store : Store) (entry : Path) : Prop :=
  ∀ path, preview.config.Reaches store entry path →
    ∃ m ∈ (preview.graph store entry).modules, m.path = path ∧ ∃ code, m.output = .ok code

theorem nodup_graph : ((preview.graph store entry).modules.map (·.path)).Nodup :=
  ModuleGraph.nodup_walk

theorem reaches_iff_exists_mem (hw : store.WellFormed) {path : Path} :
    preview.config.Reaches store entry path ↔
      ∃ m ∈ (preview.graph store entry).modules, m.path = path :=
  ((ModuleGraph.breadthFirst_walk hw).mem_iff path).symm.trans List.mem_map

theorem transforms_iff (hw : store.WellFormed) :
    preview.Transforms store entry ↔
      (preview.graph store entry).modules.filterMap Module.error? = [] := by
  rw [List.filterMap_eq_nil_iff]
  simp only [Module.error?_eq_none_iff]
  constructor
  · intro ht m hm
    obtain ⟨other, ho, hp, hok⟩ := ht m.path ((reaches_iff_exists_mem hw).mpr ⟨m, hm, rfl⟩)
    obtain rfl := List.inj_on_of_nodup_map nodup_graph ho hm hp
    exact hok
  · intro hok path hr
    obtain ⟨m, hm, hp⟩ := (reaches_iff_exists_mem hw).mp hr
    exact ⟨m, hm, hp, hok m hm⟩

/-- An assembly finds no error if everything that the entry reaches became a module. -/
theorem errors_eq_nil_iff (h : preview.registry.Resting) (hw : store.WellFormed) :
    (Assembly.ofGraph preview.registry (preview.graph store entry)).errors = [] ↔
      preview.Transforms store entry := by
  rw [(Assembly.ofGraph_spec h.bounded nodup_graph).2.2, transforms_iff hw]

/-- A stylesheet can be read, and that is all that it takes. -/
theorem transforms_of_stylesheet (hw : store.WellFormed) (hp : entry.Canonical)
    (hf : store.isFile entry = true)
    (hk : ModuleKind.ofPath preview.config entry = .stylesheet) :
    preview.Transforms store entry := by
  intro path hr
  obtain rfl := hr.eq_of_stylesheet hk
  obtain ⟨m, hm, rfl⟩ := (reaches_iff_exists_mem hw).mp hr
  have hback : Path.parse m.path.text = .ok ⟨m.path.segments⟩ := by
    rw [hp.segments_eq, hp.parse_text]
  obtain ⟨content, hread⟩ := Store.exists_read_of_isFile hback hf
  obtain ⟨output, he, hknown⟩ := ModuleGraph.completes_of_mem_walk hm
  have hbody : (Draft.ofPath preview.config store m.path).body = .done (.ok content) := by
    rw [Draft.ofPath, hread, hk]
  exact ⟨m, hm, rfl, content, (congrArg Module.output he).trans (hknown _ hbody)⟩

/-! ### The handle of the entry -/

/-- When everything became a module, the entry has a handle unless it is a stylesheet. -/
theorem isSome_report?_iff (h : preview.registry.Resting) (hw : store.WellFormed)
    (ht : preview.Transforms store entry) (memo : MemoStats) :
    ((Assembly.ofGraph preview.registry (preview.graph store entry)).report? preview.config
      (preview.graph store entry) memo).isSome = true ↔
      ModuleKind.ofPath preview.config entry ≠ .stylesheet := by
  have hserved : entry ∈ (preview.graph store entry).served.map Prod.fst ↔
      preview.config.HasModule store entry entry :=
    ModuleGraph.mem_paths_served_iff hw ((transforms_iff hw).mp ht)
  rw [← Config.hasModule_entry_iff, ← hserved, ← (building h store entry).paths,
    Assembly.report?, Option.isSome_map]
  exact Table.contains_iff

/-- A build whose assembly has a report and no errors is ready. -/
theorem ready_of_report {report : BuildReport} (he : preview.config.entryFile? store = some entry)
    (hr : (Assembly.ofGraph preview.registry (preview.graph store entry)).report? preview.config
      (preview.graph store entry) (preview.walked store entry).memo.stats = some report)
    (hn : (Assembly.ofGraph preview.registry (preview.graph store entry)).errors = []) :
    (preview.build store).status = .ready report := by
  have hwalked : (preview.walked store entry).config = preview.config := rfl
  rw [build_eq_conclude he, conclude, hwalked, hr, hn]
  rfl

/-- What a build comes to depends on its entry file: whether there is one, whether it is a
stylesheet, and whether what it reaches transforms. -/
theorem isReady_build_iff (h : preview.registry.Resting) (hw : store.WellFormed) :
    (∃ report, (preview.build store).status = .ready report) ↔
      ∃ entry, preview.config.entryFile? store = some entry ∧
        ModuleKind.ofPath preview.config entry ≠ .stylesheet ∧
        preview.Transforms store entry := by
  constructor
  · rintro ⟨report, hready⟩
    obtain ⟨entry, he, hreport, hn, -⟩ := install_of_ready hready
    have ht := (errors_eq_nil_iff h hw).mp hn
    exact ⟨entry, he, (isSome_report?_iff h hw ht _).mp (Option.isSome_of_mem hreport), ht⟩
  · rintro ⟨entry, he, hk, ht⟩
    have hsome := (isSome_report?_iff h hw ht (preview.walked store entry).memo.stats).mpr hk
    obtain ⟨report, hreport⟩ := Option.isSome_iff_exists.mp hsome
    exact ⟨report, ready_of_report he hreport ((errors_eq_nil_iff h hw).mpr ht)⟩

/-- A build is ready or has failed, and the errors of one that failed are those of its modules, or
the one of a missing entry. -/
theorem ready_or_failed (preview : Preview) (store : Store) :
    (∃ report, (preview.build store).status = .ready report) ∨
      ∃ errors report, (preview.build store).status = .failed errors report ∧
        (errors = [] ↔ ∃ entry, preview.config.entryFile? store = some entry ∧
          (Assembly.ofGraph preview.registry (preview.graph store entry)).errors = []) := by
  have ho := preview.outcome_build store
  generalize preview.build store = built at ho ⊢
  cases ho with
  | missing he => exact .inr ⟨_, _, rfl, by simp [he]⟩
  | ready => exact .inl ⟨_, rfl⟩
  | failed he report => exact .inr ⟨_, _, rfl, by simp [he]⟩

/-- A build is ready exactly when there is an entry file, it is no stylesheet, and whatever it
reaches transforms. A build that is not ready has failed, with an error unless it starts at a
stylesheet. -/
theorem failure_has_cause {text : String} (hc : Config.parse text = .ok config)
    (h : Reachable config preview) (hs : store.Reachable) :
    ((∃ report, (preview.build store).status = .ready report) ↔
      ∃ entry, config.entryFile? store = some entry ∧
        ModuleKind.ofPath config entry ≠ .stylesheet ∧ preview.Transforms store entry) ∧
    ((∃ report, (preview.build store).status = .ready report) ∨
      ∃ errors report, (preview.build store).status = .failed errors report ∧
        (errors = [] ↔ ∃ entry, config.entryFile? store = some entry ∧
          ModuleKind.ofPath config entry = .stylesheet)) := by
  obtain rfl := h.config_eq
  have hw := hs.wellFormed
  have hready := isReady_build_iff h.resting hw
  refine ⟨hready, ?_⟩
  rcases preview.ready_or_failed store with hr | ⟨errors, report, hf, herrors⟩
  · exact .inl hr
  · refine .inr ⟨errors, report, hf, herrors.trans (exists_congr fun entry => ?_)⟩
    refine and_congr_right fun he => ?_
    rw [errors_eq_nil_iff h.resting hw]
    constructor
    · intro ht
      by_contra hk
      obtain ⟨found, hfound⟩ := hready.mpr ⟨entry, he, hk, ht⟩
      cases hf.symm.trans hfound
    · intro hk
      have hcanonical := (Config.valid_of_parse hc).canonical entry (List.mem_of_find?_eq_some he)
      exact transforms_of_stylesheet hw hcanonical (Config.isFile_of_entryFile? he) hk

/-- A file that is not written to its end fails a build that starts at another one. -/
theorem failure_has_cause_of_dependency :
    let config : Config := { entryPoints := [⟨["main.js"]⟩] }
    let store := (Store.empty.attempt (.createFile "/main.js" "import './a';\n")).attempt
      (.createFile "/a.js" "export default (")
    Config.parse "entry_points: [/main.js]\n" = .ok config ∧ Reachable config { config } ∧
      store.Reachable ∧
      ∃ errors report, (Preview.build { config } store).status = .failed errors report ∧
        errors ≠ [] := by
  intro config store
  have hc : Config.parse "entry_points: [/main.js]\n" = .ok config := by decide +kernel
  have hs : store.Reachable := .attempted _ (.attempted _ .empty)
  have hentry : config.entryFile? store = some ⟨["main.js"]⟩ := by decide +kernel
  have hkind : ModuleKind.ofPath config ⟨["main.js"]⟩ ≠ .stylesheet := by decide +kernel
  have hfailed : (Preview.build { config } store).status.isFailed = true := by decide +kernel
  refine ⟨hc, .new, hs, ?_⟩
  rcases (failure_has_cause hc .new hs).2 with ⟨report, hr⟩ | ⟨errors, report, hf, herrors⟩
  · rw [hr] at hfailed
    cases hfailed
  · refine ⟨errors, report, hf, fun he => ?_⟩
    obtain ⟨entry, he, hk⟩ := herrors.mp he
    obtain rfl := Option.some.inj (he.symm.trans hentry)
    exact hkind hk

/-- A build that starts at a stylesheet fails although the file transforms, and gives no reason. -/
theorem failed_without_error_of_stylesheet :
    let config : Config := { entryPoints := [⟨["App.css"]⟩] }
    let store := Store.empty.attempt (.createFile "/App.css" "p { }")
    Config.parse "entry_points: [/App.css]\n" = .ok config ∧ store.Reachable ∧
      config.entryFile? store = some ⟨["App.css"]⟩ ∧
      Transforms { config } store ⟨["App.css"]⟩ ∧
      (Preview.build { config } store).status = .failed [] none := by
  intro config store
  have hs : store.Reachable := .attempted _ .empty
  have hentry : config.entryFile? store = some ⟨["App.css"]⟩ := by decide +kernel
  have ht : Transforms { config } store ⟨["App.css"]⟩ :=
    transforms_of_stylesheet hs.wellFormed (by decide +kernel)
      (Config.isFile_of_entryFile? hentry) (by decide +kernel)
  exact ⟨by decide +kernel, hs, hentry, ht, by decide +kernel⟩

end Preview

end LivePreview
