import LivePreview.Proofs.Preview.Build
import LivePreview.Proofs.Resolution.Candidate

/-!
# What the import map of a build holds

A build that is ready has a module for every file that the entry reaches and that is no stylesheet,
for every stylesheet that code imports, and nothing else; and an address for every package.
-/
namespace LivePreview

/-! ### Maps -/

namespace Registry

/-- What the keys of an import map are made of tells them apart. -/
structure Named (registry : Registry) (packages : List Package) : Prop where
  nodup : (registry.current.map Prod.fst).Nodup
  written : ∀ path ∈ registry.current.map Prod.fst, path.Written
  parsed : ∀ package ∈ packages, ∃ specifier, Package.parse specifier = some package

/-- What an import map is made from. -/
def resources (registry : Registry) (config : Config) (packages : List Package) :
    List (String × Resource) :=
  registry.current.map (fun (path, handle) => (path.text, .module handle)) ++
    packages.map fun p => (p.specifier, .external (p.url config))

namespace Named

variable {registry : Registry} {packages : List Package} {config : Config} {entry handle : Handle}

theorem functional_resources (h : registry.Named packages) :
    ∀ a ∈ registry.resources config packages, ∀ b ∈ registry.resources config packages,
      a.1 = b.1 → a.2 = b.2 := by
  have hpath : ∀ a ∈ registry.current, a.1.Written :=
    fun a ha => h.written _ (List.mem_map_of_mem ha)
  have hne : ∀ (path : Path), ∀ package ∈ packages, path.text ≠ package.specifier := by
    intro path package hm he
    obtain ⟨specifier, hp⟩ := h.parsed package hm
    exact Package.head?_specifier_ne hp (he ▸ path.head?_text)
  simp only [resources, List.mem_append, List.mem_map]
  rintro _ (⟨a, ha, rfl⟩ | ⟨p, hp, rfl⟩) _ (⟨b, hb, rfl⟩ | ⟨q, hq, rfl⟩) he
  · have hab : a.1 = b.1 := (hpath a ha).text_inj (hpath b hb) he
    have hget := Table.get?_of_mem_of_nodup h.nodup ha
    rw [hab, Table.get?_of_mem_of_nodup h.nodup hb] at hget
    rw [Option.some.inj hget]
  · exact absurd he (hne _ q hq)
  · exact absurd he.symm (hne _ p hp)
  · obtain ⟨specifier, hs⟩ := h.parsed p hp
    obtain ⟨specifier', hs'⟩ := h.parsed q hq
    rw [(Package.wellFormed_of_parse hs).eq_of_specifier_eq (Package.wellFormed_of_parse hs') he]

theorem get?_importMap (h : registry.Named packages) {key : String} {resource : Resource} :
    Table.get? key (registry.importMap config entry packages).imports = some resource ↔
      (∃ path handle, (path, handle) ∈ registry.current ∧
        key = path.text ∧ resource = .module handle) ∨
      ∃ package ∈ packages, key = package.specifier ∧ resource = .external (package.url config) := by
  have hget : Table.get? key (registry.importMap config entry packages).imports = some resource ↔
      (key, resource) ∈ registry.resources config packages :=
    Table.get?_ofList_iff h.functional_resources
  rw [hget]
  simp only [resources, List.mem_append, List.mem_map, Prod.exists, Prod.mk.injEq, eq_comm]

theorem mem_handles_importMap (h : registry.Named packages) :
    handle ∈ (registry.importMap config entry packages).handles ↔
      ∃ path, (path, handle) ∈ registry.current := by
  have hmem : ∀ pair, pair ∈ (registry.importMap config entry packages).imports ↔
      pair ∈ registry.resources config packages :=
    fun _ => Table.mem_ofList_iff h.functional_resources
  refine ⟨exists_of_mem_handles, fun ⟨path, hc⟩ => ?_⟩
  refine List.mem_filterMap.mpr ⟨(path.text, .module handle), (hmem _).mpr ?_, rfl⟩
  exact List.mem_append_left _ (List.mem_map.mpr ⟨(path, handle), hc, rfl⟩)

end Named

end Registry

/-! ### Needs -/

namespace Config

variable {config : Config} {store : Store} {entry path : Path} {package : Package}

/-- The page needs a module at the path: the entry reaches it, and it is no stylesheet or some code
imports it in a way that a rule in the page cannot stand for. -/
def HasModule (config : Config) (store : Store) (entry path : Path) : Prop :=
  config.Reaches store entry path ∧
    (ModuleKind.ofPath config path ≠ .stylesheet ∨
      ∃ importer, config.Reaches store entry importer ∧
        ∃ link ∈ config.imports store importer, link.resolution = .file path ∧
          (link.site.kind = .dynamic ∨ link.site.kind = .reExport))

/-- Some script that the entry reaches imports the package. -/
def NeedsPackage (config : Config) (store : Store) (entry : Path) (package : Package) : Prop :=
  ∃ importer, config.Reaches store entry importer ∧
    ∃ link ∈ config.imports store importer, link.resolution = .package package

theorem NeedsPackage.exists_parse (h : config.NeedsPackage store entry package) :
    ∃ specifier, Package.parse specifier = some package := by
  obtain ⟨importer, _, link, hl, hp⟩ := h
  have hr := resolve?_of_mem_imports hl
  rw [hp] at hr
  exact ⟨_, parse_of_resolve? hr⟩

/-- No package is written as a path. -/
theorem NeedsPackage.specifier_ne (h : config.NeedsPackage store entry package) (path : Path) :
    path.text ≠ package.specifier := by
  obtain ⟨specifier, hp⟩ := h.exists_parse
  intro he
  exact Package.head?_specifier_ne hp (he ▸ path.head?_text)

theorem lazyStyle?_eq_some_iff {link : Link} :
    link.lazyStyle? config = some path ↔
      link.resolution = .file path ∧ ModuleKind.ofPath config path = .stylesheet ∧
        (link.site.kind = .dynamic ∨ link.site.kind = .reExport) := by
  obtain ⟨site, resolution⟩ := link
  have hkind : site.isRemovable = false ↔ site.kind = .dynamic ∨ site.kind = .reExport := by
    rw [Source.ImportSite.isRemovable]
    cases site.kind <;> simp
  rw [← hkind]
  cases resolution with
  | package p => simp [Link.lazyStyle?, Link.stylesheet?, Link.file?]
  | file found =>
    rw [Link.lazyStyle?, Link.isDropped, Link.stylesheet?, Link.file?]
    by_cases hs : ModuleKind.ofPath config found = .stylesheet
    · cases hr : site.isRemovable with
      | true => simp [hs]
      | false =>
        simp only [hs, Option.filter_some, decide_true, if_true, Option.isSome_some, Bool.and_false,
          Bool.false_eq_true, if_false, Option.some.injEq, Resolution.file.injEq, and_true]
        constructor
        · rintro rfl
          exact ⟨rfl, hs⟩
        · exact fun h => h.1
    · have hne : ¬ (found = path ∧ ModuleKind.ofPath config path = .stylesheet) :=
        fun h => hs (h.1 ▸ h.2)
      simp [hs]
      tauto

end Config

namespace ModuleGraph

variable {config : Config} {store : Store} {memo : Memo} {entry : Path}

/-- What the drafts have to say of their files is told by the modules. -/
theorem mem_flatMap_walk {α : Type} {f : Module → List α} {g : Draft → List α}
    (hfg : ∀ draft output, f (draft.withOutput output) = g draft) {a : α} :
    a ∈ (walk config store memo entry).2.modules.flatMap f ↔
      ∃ path ∈ (walk config store memo entry).2.modules.map (·.path),
        a ∈ g (.ofPath config store path) := by
  have hm : ∀ m ∈ (walk config store memo entry).2.modules,
      f m = g (.ofPath config store m.path) := by
    intro m hm
    obtain ⟨output, he, _⟩ := completes_of_mem_walk hm
    rw [← hfg _ output, ← he]
  simp only [List.mem_flatMap, List.mem_map]
  constructor
  · rintro ⟨m, hmem, ha⟩
    exact ⟨m.path, ⟨m, hmem, rfl⟩, hm m hmem ▸ ha⟩
  · rintro ⟨_, ⟨m, hmem, rfl⟩, ha⟩
    exact ⟨m, hmem, (hm m hmem).symm ▸ ha⟩

variable (hw : store.WellFormed)
include hw

theorem mem_lazyStyles_iff {path : Path} :
    path ∈ (walk config store memo entry).2.modules.flatMap (·.lazyStyles) ↔
      ∃ importer, config.Reaches store entry importer ∧
        ∃ link ∈ config.imports store importer, link.resolution = .file path ∧
          ModuleKind.ofPath config path = .stylesheet ∧
            (link.site.kind = .dynamic ∨ link.site.kind = .reExport) := by
  rw [mem_flatMap_walk (g := Draft.lazyStyles) fun _ _ => rfl]
  refine exists_congr fun importer => ?_
  rw [(breadthFirst_walk hw).mem_iff, Draft.lazyStyles_ofPath, List.mem_eraseDups,
    List.mem_filterMap]
  simp only [Config.lazyStyle?_eq_some_iff]

theorem mem_packages_iff {package : Package} :
    package ∈ (walk config store memo entry).2.modules.flatMap (·.packages) ↔
      config.NeedsPackage store entry package := by
  rw [mem_flatMap_walk (g := Draft.packages) fun _ _ => rfl]
  refine exists_congr fun importer => ?_
  rw [(breadthFirst_walk hw).mem_iff, Draft.packages_ofPath, List.mem_eraseDups,
    List.mem_filterMap]
  refine and_congr_right fun _ => exists_congr fun link => and_congr_right fun _ => ?_
  obtain ⟨site, resolution⟩ := link
  cases resolution <;> simp [Link.package?]

/-- What the graph serves is what the page needs a module for, unless it is at fault. -/
theorem mem_served_walk_iff {path : Path} {code : String} :
    (path, code) ∈ (walk config store memo entry).2.served ↔
      config.HasModule store entry path ∧
        ∃ m ∈ (walk config store memo entry).2.modules, m.path = path ∧
          ∃ output, m.output = .ok output ∧ (ModuleKind.ofPath config path).serve output = code := by
  rw [served, List.mem_filterMap]
  simp only [Module.served?_eq_some_iff]
  constructor
  · rintro ⟨m, hm, rfl, hkind, output, ho, hc⟩
    rw [kind_of_mem_walk hm] at hkind hc
    have hreaches := ((breadthFirst_walk hw).mem_iff m.path).mp (List.mem_map_of_mem hm)
    refine ⟨⟨hreaches, hkind.imp_right fun hl => ?_⟩, m, hm, rfl, output, ho, hc⟩
    obtain ⟨importer, hi, link, hlink, hfile, _, hkind⟩ := (mem_lazyStyles_iff hw).mp hl
    exact ⟨importer, hi, link, hlink, hfile, hkind⟩
  · rintro ⟨⟨_, hneeds⟩, m, hm, rfl, output, ho, hc⟩
    refine ⟨m, hm, rfl, ?_, output, ho, (kind_of_mem_walk hm).symm ▸ hc⟩
    rw [kind_of_mem_walk hm]
    by_cases hs : ModuleKind.ofPath config m.path = .stylesheet
    · obtain ⟨importer, hi, link, hlink, hfile, hkind⟩ := hneeds.resolve_left (not_not_intro hs)
      exact .inr ((mem_lazyStyles_iff hw).mpr ⟨importer, hi, link, hlink, hfile, hs, hkind⟩)
    · exact .inl hs

theorem mem_paths_served_iff
    (hok : (walk config store memo entry).2.modules.filterMap Module.error? = []) {path : Path} :
    path ∈ (walk config store memo entry).2.served.map Prod.fst ↔
      config.HasModule store entry path := by
  rw [List.mem_map]
  constructor
  · rintro ⟨⟨_, code⟩, hm, rfl⟩
    exact ((mem_served_walk_iff hw).mp hm).1
  · intro h
    obtain ⟨m, hm, hp⟩ := List.mem_map.mp (((breadthFirst_walk hw).mem_iff path).mpr h.1)
    cases ho : m.output with
    | error error =>
      have hnone : m.error? = none := List.filterMap_eq_nil_iff.mp hok m hm
      simp [Module.error?, ho] at hnone
    | ok output =>
      exact ⟨_, (mem_served_walk_iff hw).mpr ⟨h, m, hm, hp, output, ho, rfl⟩, rfl⟩

end ModuleGraph

/-! ### Exact maps -/

theorem Config.isFile_of_entryFile? {config : Config} {store : Store} {entry : Path}
    (h : config.entryFile? store = some entry) : store.isFile entry = true :=
  List.find?_some h

/-- With plain extensions, an import leads to a file under its own path. -/
theorem Config.canonical_of_mem_importedFiles {config : Config} {store : Store}
    {importer path : Path} (hw : store.WellFormed) (hi : IsIndexBasename config.indexBasename)
    (hx : ∀ extension ∈ config.extensions, '/' ∉ extension.toList)
    (hn : path ∈ config.importedFiles store importer) : path.Canonical := by
  obtain ⟨link, hl, hp⟩ := mem_importedFiles_iff.mp hn
  have hr := resolve?_of_mem_imports hl
  rw [hp] at hr
  exact canonical_of_resolve? hw hi hx hr

theorem Config.Reaches.canonical_of_entry {config : Config} {store : Store} {entry path : Path}
    (hw : store.WellFormed) (hi : IsIndexBasename config.indexBasename)
    (hx : ∀ extension ∈ config.extensions, '/' ∉ extension.toList) (he : entry.Canonical)
    (h : config.Reaches store entry path) : path.Canonical := by
  cases h with
  | entry => exact he
  | step _ hn => exact canonical_of_mem_importedFiles hw hi hx hn

theorem Config.Reaches.canonical {config : Config} {store : Store} {entry path : Path}
    (hw : store.WellFormed) (hv : config.Valid)
    (hx : ∀ extension ∈ config.extensions, '/' ∉ extension.toList)
    (he : config.entryFile? store = some entry) (h : config.Reaches store entry path) :
    path.Canonical :=
  h.canonical_of_entry hw hv.indexBasename hx (hv.canonical _ (List.mem_of_find?_eq_some he))

/-- The map has the modules and the packages that the page needs, and nothing else. No package
stands at the path of a file, and each module fetches the output of its file. -/
structure ImportMap.Exact (map : ImportMap) (config : Config) (store : Store) (entry : Path)
    (modules : List Module) (registry : Registry) : Prop where
  contains_iff : ∀ key, Table.contains key map.imports = true ↔
    (∃ path : Path, config.HasModule store entry path ∧ key = path.text) ∨
      ∃ package : Package, config.NeedsPackage store entry package ∧ key = package.specifier
  ne : ∀ (path : Path) (package : Package), config.NeedsPackage store entry package → path.text ≠ package.specifier
  module : ∀ path, config.HasModule store entry path →
    ∃ m ∈ modules, m.path = path ∧ (Draft.ofPath config store path).Completes m ∧
      ∃ output handle, m.output = .ok output ∧
      Table.get? path.text map.imports = some (.module handle) ∧
        registry.fetch? handle = some ((ModuleKind.ofPath config path).serve output)
  external : ∀ package, config.NeedsPackage store entry package →
    Table.get? package.specifier map.imports = some (.external (package.url config))

namespace Preview

variable {config : Config} {preview : Preview} {store : Store} {entry : Path}

theorem named_build (h : preview.registry.Resting) (hw : store.WellFormed)
    (he : preview.config.entryFile? store = some entry) :
    (Assembly.ofGraph preview.registry (preview.graph store entry)).registry.Named
      ((preview.graph store entry).modules.flatMap (·.packages)) where
  nodup := by
    rw [(building h store entry).paths]
    exact ModuleGraph.nodup_served ModuleGraph.nodup_walk
  written := by
    rw [(building h store entry).paths]
    intro path hp
    obtain ⟨⟨_, code⟩, hs, rfl⟩ := List.mem_map.mp hp
    have hm := ((ModuleGraph.mem_served_walk_iff hw).mp hs).1
    exact hw.written_of_isFile (hm.1.isFile (Config.isFile_of_entryFile? he))
  parsed := fun package hp => ((ModuleGraph.mem_packages_iff hw).mp hp).exists_parse

/-- What was put together without errors maps what the page needs. -/
theorem exact_install (h : preview.registry.Resting) (hw : store.WellFormed)
    (he : preview.config.entryFile? store = some entry)
    (hn : (preview.graph store entry).modules.filterMap Module.error? = []) (handle : Handle) :
    let registry := (Assembly.ofGraph preview.registry (preview.graph store entry)).registry
    let modules := (preview.graph store entry).modules
    (registry.importMap preview.config handle (modules.flatMap (·.packages))).Exact preview.config
      store entry modules (registry.install registry.generation) := by
  intro registry modules
  have hbuilding : preview.registry.Building (preview.graph store entry).served registry :=
    building h store entry
  have hnamed : registry.Named (modules.flatMap (·.packages)) := named_build h hw he
  have hpackages : ∀ package, package ∈ modules.flatMap (·.packages) ↔
      preview.config.NeedsPackage store entry package :=
    fun _ => ModuleGraph.mem_packages_iff hw
  have hpaths : ∀ path, (∃ handle, (path, handle) ∈ registry.current) ↔
      preview.config.HasModule store entry path := by
    intro path
    have hserved : path ∈ (preview.graph store entry).served.map Prod.fst ↔ _ :=
      ModuleGraph.mem_paths_served_iff hw hn
    rw [← hserved, ← hbuilding.paths]
    simp
  refine ⟨fun key => ?_, fun path package hp => hp.specifier_ne path, fun path hp => ?_,
    fun package hp => ?_⟩
  · rw [Table.contains, Option.isSome_iff_exists]
    simp only [hnamed.get?_importMap, ← hpaths, ← hpackages]
    constructor
    · rintro ⟨_, ⟨path, handle, hc, rfl, _⟩ | ⟨package, hp, rfl, _⟩⟩
      · exact .inl ⟨path, ⟨handle, hc⟩, rfl⟩
      · exact .inr ⟨package, hp, rfl⟩
    · rintro (⟨path, ⟨handle, hc⟩, rfl⟩ | ⟨package, hp, rfl⟩)
      · exact ⟨_, .inl ⟨path, handle, hc, rfl, rfl⟩⟩
      · exact ⟨_, .inr ⟨package, hp, rfl, rfl⟩⟩
  · obtain ⟨handle, hc⟩ := (hpaths path).mpr hp
    obtain ⟨⟨_, code⟩, hs, rfl⟩ := List.mem_map.mp
      ((ModuleGraph.mem_paths_served_iff hw hn).mpr hp)
    obtain ⟨_, m, hm, hpath, output, ho, hcode⟩ := (ModuleGraph.mem_served_walk_iff hw).mp hs
    obtain ⟨found, hfound, hfetch⟩ := hbuilding.mem_served_iff.mp hs
    refine ⟨m, hm, hpath, hpath ▸ ModuleGraph.completes_of_mem_walk hm, output, found, ho, ?_, ?_⟩
    · exact hnamed.get?_importMap.mpr (.inl ⟨_, found, hfound, rfl, rfl⟩)
    · rw [hfetch]
      exact congrArg some hcode.symm
  · exact hnamed.get?_importMap.mpr (.inr ⟨package, (hpackages package).mpr hp, rfl, rfl⟩)

/-- When no module is at fault, the styles are the stylesheets among the modules. -/
theorem map_path_styles {modules : List Module}
    (hok : modules.filterMap Module.error? = [])
    (hk : ∀ m ∈ modules, m.kind = ModuleKind.ofPath config m.path) :
    (modules.filterMap Module.style?).map (·.path) =
      (modules.map (·.path)).filter (ModuleKind.ofPath config · = .stylesheet) := by
  induction modules with
  | nil => rfl
  | cons m rest ih =>
    obtain ⟨hm, hrest⟩ := List.forall_mem_cons.mp hk
    cases ho : m.output with
    | error error => simp [Module.error?, ho] at hok
    | ok output =>
      have hnone : m.error? = none := by simp [Module.error?, ho]
      rw [List.filterMap_cons_none hnone] at hok
      have htail := ih hok hrest
      by_cases hs : m.kind = .stylesheet
      · have hsome : m.style? = some ⟨m.path, output⟩ := by simp [Module.style?, ho, hs]
        rw [List.filterMap_cons_some hsome, List.map_cons, List.map_cons, htail]
        simp [← hm, hs]
      · have hsome : m.style? = none := by simp [Module.style?, ho, hs]
        rw [List.filterMap_cons_none hsome, List.map_cons, htail]
        simp [← hm, hs]

theorem read_of_style? {m : Module} {style : Stylesheet} (h : m.style? = some style)
    (hc : (Draft.ofPath config store m.path).Completes m) :
    store.read style.path.text = .ok style.text := by
  have hkind : m.kind = ModuleKind.ofPath config m.path := by
    obtain ⟨output, he, _⟩ := hc
    rw [← Draft.kind_ofPath config store]
    exact congrArg Module.kind he
  obtain ⟨output, he, hknown⟩ := hc
  have hout : m.output = output := congrArg Module.output he
  rw [Module.style?] at h
  split at h
  · cases h
  · rename_i code ho
    split at h
    · rename_i hs
      obtain rfl := Option.some.inj h
      rw [hkind] at hs
      show store.read m.path.text = .ok code
      rw [Draft.ofPath, hs] at hknown
      cases hr : store.read m.path.text with
      | error error =>
        have hbad := hknown (.error (.missing m.path)) (by rw [hr])
        rw [← hout, ho] at hbad
        cases hbad
      | ok content =>
        have hgood := hknown (.ok content) (by rw [hr])
        rw [← hout, ho] at hgood
        rw [Except.ok.inj hgood]
    · cases h

/-- A build that is ready maps what the page needs, each to its code or its address, and its
document has each stylesheet that the entry reaches once, in the order of the walk. -/
theorem importMap_exact (h : Reachable config preview) (hs : store.Reachable)
    {report : BuildReport} (hr : (preview.build store).status = .ready report) :
    ∃ entry document order, config.entryFile? store = some entry ∧
      (preview.build store).document = some document ∧ document.importMap = report.importMap ∧
      config.BreadthFirst store entry order ∧
      (preview.graph store entry).modules.map (·.path) = order ∧
      report.importMap.Exact config store entry (preview.graph store entry).modules
        (preview.build store).registry ∧
      document.styles.map (·.path) =
        order.filter (ModuleKind.ofPath config · = .stylesheet) ∧
      (∀ style ∈ document.styles, store.read style.path.text = .ok style.text) ∧
      (config.Valid → (∀ extension ∈ config.extensions, '/' ∉ extension.toList) →
        ∀ path ∈ order, path.Canonical) := by
  have hw := hs.wellFormed
  obtain ⟨entry, he, hreport, hn, heq⟩ := install_of_ready hr
  obtain rfl := h.config_eq
  obtain ⟨hbuilding, hstyles, herrors⟩ :=
    @Assembly.ofGraph_spec preview.registry (preview.graph store entry) h.resting.bounded
      ModuleGraph.nodup_walk
  have hbf : preview.config.BreadthFirst store entry
      ((preview.graph store entry).modules.map (·.path)) := ModuleGraph.breadthFirst_walk hw
  refine ⟨entry, _, _, he, congrArg Preview.document heq, rfl, hbf, rfl, ?_, ?_, ?_, ?_⟩
  · have hg := Assembly.generation_of_report? hreport
    obtain ⟨handle, _, rfl⟩ := Option.map_eq_some_iff.mp hreport
    rw [heq]
    exact exact_install h.resting hw he (herrors ▸ hn) handle
  · show (Assembly.styles _).map (·.path) = _
    rw [hstyles]
    exact map_path_styles (herrors ▸ hn) fun m hm => ModuleGraph.kind_of_mem_walk hm
  · intro style hm
    change style ∈ Assembly.styles _ at hm
    rw [hstyles] at hm
    obtain ⟨m, hm, hstyle⟩ := List.mem_filterMap.mp hm
    exact read_of_style? hstyle (ModuleGraph.completes_of_mem_walk hm)
  · intro hv hx path hp
    exact ((hbf.mem_iff path).mp hp).canonical hw hv hx he

/-- One stylesheet is imported by a statement alone, the other also by a call. -/
theorem importMap_exact_of_call :
    let store := ((Store.empty.attempt (.createFile "/App.jsx"
        "import React from 'react';\nimport './a.css';\nimport('./b.css');\nimport './b.js';\n")).attempt
      (.createFile "/b.js" "import './b.css';\n")).attempt (.createFile "/a.css" "p { }")
    let store := store.attempt (.createFile "/b.css" "")
    let built := Preview.build { config := {} } store
    ∃ report, built.status = .ready report ∧
      report.importMap.imports.map Prod.fst = ["/App.jsx", "/b.css", "/b.js", "react"] ∧
      report.importMap.Exact {} store ⟨["App.jsx"]⟩
        (Preview.graph { config := {} } store ⟨["App.jsx"]⟩).modules built.registry := by
  intro store store' built
  have hs : store'.Reachable :=
    .attempted _ (.attempted _ (.attempted _ (.attempted _ .empty)))
  have hbuilt : built.status.isFailed = false ∧
      built.status.report?.map (·.importMap.imports.map Prod.fst) =
        some ["/App.jsx", "/b.css", "/b.js", "react"] := by decide +kernel
  obtain ⟨report, hr, hkeys⟩ := BuildStatus.exists_ready_of_map hbuilt
  refine ⟨report, hr, hkeys, ?_⟩
  obtain ⟨entry, _, _, he, _, _, _, _, hexact, _⟩ := importMap_exact .new hs hr
  have hentry : Config.entryFile? {} store' = some ⟨["App.jsx"]⟩ := by decide +kernel
  obtain rfl := Option.some.inj (he.symm.trans hentry)
  exact hexact

end Preview

end LivePreview
