import LivePreview.Proofs.Module.Linked
import LivePreview.Proofs.Preview.ImportMap
import LivePreview.Proofs.Preview.Incremental

/-!
# Linkable previews

The code of a script is linkable when the import map has a key for each import site that is found
in it. The map is made from the sites of the script as it was written. A dropped statement can bring
a site forth that was none before, and a path with a quote in it ends the string it is put into.
Where the edits of all scripts are confined to their places, a preview that is ready is linkable.
-/
namespace LivePreview

/-- The map has a key for each import site of the code. -/
def ImportMap.Links (map : ImportMap) (dialect : Source.Dialect) (code : String) : Prop :=
  ∀ site ∈ Source.importSites code dialect, Table.contains site.specifier map.imports = true

/-- The report's map links the code of every script that the build registers. -/
def Preview.Linkable (preview : Preview) (store : Store) (report : BuildReport) : Prop :=
  ∀ m ∈ (preview.graph store report.entry).modules, ∀ dialect code,
    m.kind = .script dialect → m.output = .ok code → report.importMap.Links dialect code

namespace Preview

variable {preview : Preview} {store : Store} {report : BuildReport}

/-! ### Confined edits -/

/-- What is left of the imports of a script has a key in an exact map. -/
theorem contains_specifier {map : ImportMap} {config : Config} {entry importer : Path}
    {modules : List Module} {registry : Registry} (hx : map.Exact config store entry modules registry)
    (hi : config.Reaches store entry importer) {link : Link}
    (hl : link ∈ config.imports store importer) (hd : link.isDropped config = false) :
    Table.contains link.resolution.specifier map.imports = true := by
  rw [hx.contains_iff]
  cases hr : link.resolution with
  | package package => exact .inr ⟨package, ⟨importer, hi, link, hl, hr⟩, rfl⟩
  | file path =>
    have hreaches := hi.step (Config.mem_importedFiles_iff.mpr ⟨link, hl, hr⟩)
    refine .inl ⟨path, ⟨hreaches, Classical.or_iff_not_imp_left.mpr fun hstyle => ?_⟩, rfl⟩
    have hk : ModuleKind.ofPath config path = .stylesheet := Classical.not_not.mp hstyle
    have hlazy : link.lazyStyle? config = some path := by
      rw [Link.lazyStyle?, hd, Link.stylesheet?, Link.file?, hr]
      simp [hk]
    obtain ⟨_, _, hkind⟩ := Config.lazyStyle?_eq_some_iff.mp hlazy
    exact ⟨importer, hi, link, hl, hr, hkind⟩

theorem Reachable.foldl_build {config : Config} (h : Reachable config preview)
    (stores : List Store) : Reachable config (stores.foldl build preview) := by
  induction stores generalizing preview with
  | nil => exact h
  | cons store rest ih => exact ih (.built store h)

theorem graph_eq {config : Config} {stores : List Store} (h : preview.Settled config stores)
    (ha : KeysAgree (config.Meets stores)) (hs : store ∈ stores) {entry : Path}
    (he : config.entryFile? store = some entry) :
    preview.graph store entry = graphOf config store entry :=
  congrArg Prod.fst (h.assemble ha hs he).2

/-- A build that is ready is linkable if the edits of every script that the entry reaches are
confined, whatever was built before, provided that no fingerprints of what these builds hash collide. -/
theorem linkable_of_editsConfined (config : Config) (history : List Store) (store : Store)
    (hr : ∀ s ∈ store :: history, s.Reachable)
    (hn : NoCollisions ((store :: history).flatMap config.hashed)) {report : BuildReport}
    (hready : ((history.foldl build { config }).build store).status = .ready report)
    (hc : ∀ path, config.Reaches store report.entry path → config.EditsConfined store path) :
    Linkable (history.foldl build { config }) store report := by
  have ha := Config.keysAgree_meets hr hn
  have hpreview := (settled_new config (store :: history)).foldl_build ha
    fun s hs => List.mem_cons_of_mem store hs
  have hnew : Reachable config { config } := .new
  have hreachable := hnew.foldl_build history
  have hs := hr store List.mem_cons_self
  generalize history.foldl build { config } = preview at hready hpreview hreachable ⊢
  obtain ⟨entry, he, hreport, hok, _⟩ := install_of_ready hready
  obtain ⟨_, _, herrors⟩ := @Assembly.ofGraph_spec preview.registry (preview.graph store entry)
    hreachable.resting.bounded ModuleGraph.nodup_walk
  have hexact := exact_install hreachable.resting hs.wellFormed he (herrors ▸ hok)
  obtain ⟨handle, _, rfl⟩ := Option.map_eq_some_iff.mp hreport
  obtain rfl := hreachable.config_eq
  intro m hm dialect code hkind hout site hsite
  change m ∈ (preview.graph store entry).modules at hm
  rw [graph_eq hpreview ha List.mem_cons_self he] at hm
  obtain ⟨draft, hd, rfl⟩ := List.mem_map.mp hm
  have hreaches := ((ModuleGraph.breadthFirst_drafts hs.wellFormed preview.config entry).mem_iff _).mp
    (List.mem_map_of_mem hd)
  obtain ⟨path, rfl⟩ := ModuleGraph.exists_path_of_mem_drafts hd
  rw [Draft.path_ofPath] at hreaches
  obtain ⟨content, hscript, rfl⟩ :=
    Draft.exists_isScript ((Draft.kind_ofPath preview.config store path).symm.trans hkind) hout
  obtain ⟨link, hl, hkept, hspecifier⟩ := hscript.exists_link (hc path hreaches) hsite
  rw [← hspecifier]
  exact contains_specifier (hexact handle) hreaches hl hkept

/-- One stylesheet is imported by a statement that is dropped and by a call that is kept. -/
theorem linkable_of_dropped_statement :
    let store := ((Store.empty.attempt (.createFile "/App.jsx"
      "import React from 'react';\nimport './a.css';\nimport b from \"./b\";\nb();\n")).attempt
        (.createFile "/a.css" "p { }\n")).attempt
          (.createFile "/b.jsx" "export default () => import('./a.css');\n")
    ∃ report, (Preview.build { config := {} } store).status = .ready report ∧
      report.importMap.imports.map Prod.fst = ["/App.jsx", "/a.css", "/b.jsx", "react"] ∧
        Linkable { config := {} } store report := by
  intro store
  have hstore : store.Reachable := .attempted _ (.attempted _ (.attempted _ .empty))
  have hbuilt : (Preview.build { config := {} } store).status.isFailed = false ∧
      (Preview.build { config := {} } store).status.report?.map
          (fun report => (report.entry, report.importMap.imports.map Prod.fst)) =
        some (⟨["App.jsx"]⟩, ["/App.jsx", "/a.css", "/b.jsx", "react"]) := by decide +kernel
  obtain ⟨report, hr, he⟩ := BuildStatus.exists_ready_of_map hbuilt
  obtain ⟨hentry, hkeys⟩ := Prod.mk.inj he
  have hconfined : ∀ path ∈ (ModuleGraph.drafts {} store ⟨["App.jsx"]⟩).map (·.path),
      Config.EditsConfined {} store path := by decide +kernel
  have hhashed : NoCollisions ([store].flatMap (Config.hashed {})) := by decide +kernel
  refine ⟨report, hr, hkeys, linkable_of_editsConfined {} [] store (by simpa using hstore) hhashed hr ?_⟩
  intro path hp
  rw [hentry, ← (ModuleGraph.breadthFirst_drafts hstore.wellFormed {} _).mem_iff] at hp
  exact hconfined path hp

/-! ### Edits that are not confined -/

theorem not_linkable {path : Path} {imports : List (String × Resource)} {dialect : Source.Dialect}
    {code specifier : String} (he : report.entry = path ∧ report.importMap.imports = imports)
    (hm : (preview.graph store path).modules.head?.map (fun m => (m.kind, m.output.toOption)) =
      some (.script dialect, some code))
    (hs : specifier ∈ (Source.importSites code dialect).map (·.specifier))
    (hc : Table.contains specifier imports = false) : ¬ preview.Linkable store report := by
  intro h
  obtain ⟨rfl, rfl⟩ := he
  obtain ⟨m, hhead, hkind⟩ := Option.map_eq_some_iff.mp hm
  obtain ⟨hkind, hout⟩ := Prod.mk.inj hkind
  obtain ⟨site, hsite, rfl⟩ := List.mem_map.mp hs
  have hlinks := h m (List.mem_of_mem_head? hhead) dialect code hkind
    (Config.toOption_eq_some hout) site hsite
  rw [hc] at hlinks
  cases hlinks

/-- A statement behind that of a stylesheet stands at the start of the line once that is dropped. -/
theorem not_linkable_of_second_statement :
    let store := ((Store.empty.attempt (.createFile "/App.jsx"
      "import './a.css'; import './b.js';\n")).attempt (.createFile "/a.css" "p { }\n")).attempt
        (.createFile "/b.js" "run();\n")
    store.Reachable ∧ Config.Valid {} ∧
      ∃ report, (Preview.build { config := {} } store).status = .ready report ∧
        ¬ Linkable { config := {} } store report := by
  intro store
  refine ⟨.attempted _ (.attempted _ (.attempted _ .empty)), by constructor <;> decide, ?_⟩
  have hbuilt : (Preview.build { config := {} } store).status.isFailed = false ∧
      (Preview.build { config := {} } store).status.report?.map
          (fun report => (report.entry, report.importMap.imports)) =
        some (⟨["App.jsx"]⟩, [("/App.jsx", .module ⟨1, 0⟩)]) := by decide +kernel
  obtain ⟨report, hr, he⟩ := BuildStatus.exists_ready_of_map hbuilt
  have hm : (graph { config := {} } store ⟨["App.jsx"]⟩).modules.head?.map
      (fun m => (m.kind, m.output.toOption)) =
        some (.script .jsx, some " import './b.js';\n") := by decide +kernel
  have hs : "./b.js" ∈ (Source.importSites " import './b.js';\n" .jsx).map (·.specifier) := by
    decide +kernel
  exact ⟨report, hr, not_linkable (Prod.mk.inj he) hm hs (by decide)⟩

/-- The path of a file goes into a string as it is, though it holds the quote that ends the string. -/
theorem not_linkable_of_quote_in_path :
    let store := (Store.empty.attempt (.createFile "/it's/App.jsx" "import b from './b';\n")).attempt
      (.createFile "/it's/b.jsx" "run();\n")
    let config : Config := { entryPoints := [⟨["it's", "App.jsx"]⟩] }
    store.Reachable ∧ config.Valid ∧
      ∃ report, (Preview.build { config } store).status = .ready report ∧
        ¬ Linkable { config } store report := by
  intro store config
  refine ⟨.attempted _ (.attempted _ .empty), by constructor <;> decide, ?_⟩
  have hbuilt : (Preview.build { config } store).status.isFailed = false ∧
      (Preview.build { config } store).status.report?.map
          (fun report => (report.entry, report.importMap.imports)) =
        some (⟨["it's", "App.jsx"]⟩,
          [("/it's/App.jsx", .module ⟨1, 0⟩), ("/it's/b.jsx", .module ⟨1, 1⟩)]) := by
    decide +kernel
  obtain ⟨report, hr, he⟩ := BuildStatus.exists_ready_of_map hbuilt
  have hm : (graph { config } store ⟨["it's", "App.jsx"]⟩).modules.head?.map
      (fun m => (m.kind, m.output.toOption)) =
        some (.script .jsx, some "import b from '/it's/b.jsx';\n") := by decide +kernel
  have hs : "/it" ∈ (Source.importSites "import b from '/it's/b.jsx';\n" .jsx).map
      (·.specifier) := by decide +kernel
  exact ⟨report, hr, not_linkable (Prod.mk.inj he) hm hs (by decide)⟩

end Preview

end LivePreview
