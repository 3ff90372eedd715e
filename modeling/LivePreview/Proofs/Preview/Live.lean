import LivePreview.Proofs.Preview.ImportMap

/-!
# What is live

A build registers its modules beside those of the document that is shown. If it fails, nothing of
that document changes and none of the new handles stays live. So after any builds the live handles
are those of the last document that was ready, and the sandbox holds what they fetch.
-/
namespace LivePreview

namespace Preview

variable {config : Config} {preview : Preview} {store : Store}

/-! ### Failed builds -/

/-- The page and whatever it can fetch are the same. -/
structure Unchanged (before after : Preview) : Prop where
  sandbox : after.sandbox = before.sandbox
  document : after.document = before.document
  installed : after.registry.installed = before.registry.installed
  fetch? : ∀ handle, after.registry.fetch? handle = before.registry.fetch? handle

theorem unchanged_build_or_ready (h : preview.registry.Resting) (store : Store) :
    Unchanged preview (preview.build store) ∨
      ∃ report, (preview.build store).status = .ready report := by
  have ho := preview.outcome_build store
  generalize preview.build store = built at ho ⊢
  cases ho with
  | missing he => exact .inl ⟨rfl, rfl, rfl, fun _ => rfl⟩
  | @ready entry report he hr hn => exact .inr ⟨report, rfl⟩
  | @failed entry he report hr =>
    have hb := building h store entry
    exact .inl ⟨rfl, rfl, hb.installed_discard, hb.fetch?_discard h⟩

/-- The handles that a report names are of the generation that was built. -/
theorem generation_of_mem_report (h : preview.registry.Resting) {entry : Path} {memo : MemoStats}
    {report : BuildReport}
    (hr : (Assembly.ofGraph preview.registry (preview.graph store entry)).report? preview.config
      (preview.graph store entry) memo = some report) :
    report.importMap.entry.generation = preview.registry.generation + 1 ∧
      ∀ handle ∈ report.importMap.handles,
        handle.generation = preview.registry.generation + 1 := by
  have hb := building h store entry
  obtain ⟨found, hfound, rfl⟩ := Option.map_eq_some_iff.mp hr
  refine ⟨(hb.mem_current_iff.mp (Table.mem_of_get?_eq_some hfound)).1, fun handle hm => ?_⟩
  obtain ⟨⟨key, resource⟩, hp, hresource⟩ := List.mem_filterMap.mp hm
  rcases List.mem_append.mp (Table.mem_of_mem_ofList hp) with hp | hp
  · obtain ⟨⟨path, other⟩, hc, he⟩ := List.mem_map.mp hp
    obtain ⟨_, rfl⟩ := Prod.mk.inj he
    obtain rfl := Option.some.inj hresource
    exact (hb.mem_current_iff.mp hc).1
  · obtain ⟨package, _, he⟩ := List.mem_map.mp hp
    obtain ⟨_, rfl⟩ := Prod.mk.inj he
    cases hresource

/-- A build that fails leaves the page and what it fetches as they are, and no handle that its
report names is live. -/
theorem unchanged_of_failed (h : Reachable config preview) {errors : List BuildError}
    {report : Option BuildReport} (hf : (preview.build store).status = .failed errors report) :
    Unchanged preview (preview.build store) ∧
      ∀ r, report = some r → ∀ handle, handle = r.importMap.entry ∨ handle ∈ r.importMap.handles →
        (preview.build store).registry.fetch? handle = none := by
  have hsame : Unchanged preview (preview.build store) := by
    rcases unchanged_build_or_ready h.resting store with hsame | ⟨found, hr⟩
    · exact hsame
    · rw [hf] at hr
      cases hr
  refine ⟨hsame, fun r hreport handle hm => ?_⟩
  rw [hsame.fetch?]
  apply h.resting.bounded.fetch?_eq_none
  have ho := preview.outcome_build store
  generalize preview.build store = built at ho hf
  cases ho with
  | missing he =>
    obtain ⟨_, rfl⟩ := BuildStatus.failed.inj hf
    cases hreport
  | ready he hr hn => cases hf
  | @failed entry he found hr =>
    obtain ⟨_, rfl⟩ := BuildStatus.failed.inj hf
    obtain ⟨hentry, hhandles⟩ := generation_of_mem_report h.resting (hr.trans hreport)
    rcases hm with rfl | hm
    · omega
    · have hg := hhandles handle hm
      omega

/-- A dependency at fault after a build that was ready: the entry gets a handle, which is released. -/
theorem unchanged_of_broken_dependency :
    let good := Store.empty.attempt (.createFile "/App.jsx" "import './b.js';\n")
    let first := good.attempt (.createFile "/b.js" "run();\n")
    let broken := good.attempt (.createFile "/b.js" "run();)\n")
    let preview := Preview.build { config := {} } first
    ∃ fault report, (preview.build broken).status =
        .failed [.module (.malformed ⟨["b.js"]⟩ (.script fault))] (some report) ∧
      report.importMap.handles = [⟨2, 0⟩] ∧ preview.registry.fetch? ⟨1, 1⟩ = some "run();\n" ∧
      (preview.build broken).registry.fetch? ⟨1, 1⟩ = some "run();\n" ∧
      (preview.build broken).registry.fetch? ⟨2, 0⟩ = none := by
  intro good first broken preview
  have hp : Reachable {} preview := .built first .new
  let report := (preview.build broken).status.report?.get (by decide +kernel)
  have hf : (preview.build broken).status = .failed [.module (.malformed ⟨["b.js"]⟩
      (.script ⟨.unexpected ')', some ⟨1, 7⟩⟩))] (some report) := by
    decide +kernel
  have hhandles : report.importMap.handles = [⟨2, 0⟩] := by decide +kernel
  have hlive : preview.registry.fetch? ⟨1, 1⟩ = some "run();\n" := by decide +kernel
  obtain ⟨hsame, hgone⟩ := unchanged_of_failed hp hf
  exact ⟨_, report, hf, hhandles, hlive, (hsame.fetch? _).trans hlive,
    hgone report rfl ⟨2, 0⟩ (.inr (by simp [hhandles]))⟩

/-! ### Runs of builds -/

/-- Nothing was ever shown. -/
structure Blank (preview : Preview) : Prop where
  document : preview.document = none
  context : preview.sandbox.context = none
  fetch? : ∀ handle, preview.registry.fetch? handle = none

/-- The live handles are those of the document, and the sandbox holds what they fetch. -/
structure Shows (preview : Preview) (document : Document) : Prop where
  document_eq : preview.document = some document
  isSome_iff : ∀ handle, (preview.registry.fetch? handle).isSome = true ↔
    handle ∈ document.importMap.handles
  installed : ∀ handle ∈ document.importMap.handles,
    preview.registry.installed = some handle.generation
  context : ∃ context, preview.sandbox.context = some context ∧
    context.entry = document.importMap.entry ∧ context.entry ∈ document.importMap.handles ∧
    context.modules.map Prod.fst = document.importMap.handles ∧
    (∀ handle code, (handle, code) ∈ context.modules →
      preview.registry.fetch? handle = some code) ∧
    context.styles = document.styles.map (·.text) ∧ context.failures = []

/-- The previews right after those builds that were ready. -/
def readyBuilds (preview : Preview) : List Store → List Preview
  | [] => []
  | store :: rest =>
    let built := preview.build store
    match built.status with
    | .ready _ => built :: built.readyBuilds rest
    | _ => built.readyBuilds rest

/-- What is live, given the preview right after the last build that was ready. -/
def Live (preview : Preview) : Option Preview → Prop
  | none => preview.Blank
  | some built => ∃ report document, built.status = .ready report ∧ built.document = some document ∧
      document.importMap = report.importMap ∧ preview.Shows document

theorem Unchanged.live {before after : Preview} (h : Unchanged before after) {last : Option Preview}
    (hl : before.Live last) : after.Live last := by
  cases last with
  | none =>
    refine ⟨h.document.trans hl.document, ?_, fun handle => (h.fetch? handle).trans (hl.fetch? handle)⟩
    rw [h.sandbox, hl.context]
  | some built =>
    obtain ⟨report, document, hr, hd, he, hs⟩ := hl
    obtain ⟨context, hc, hentry, hm, hmodules, hcode, hrest⟩ := hs.context
    refine ⟨report, document, hr, hd, he, h.document.trans hs.document_eq, fun handle => ?_,
      fun handle hh => ?_, context, ?_, hentry, hm, hmodules, fun handle code hh => ?_, hrest⟩
    · rw [h.fetch?, hs.isSome_iff]
    · rw [h.installed, hs.installed handle hh]
    · rw [h.sandbox, hc]
    · rw [h.fetch?, hcode handle code hh]

/-! ### Builds that are ready -/

section Reported

variable {entry : Path} {memo : MemoStats} {report : BuildReport}
  (h : preview.registry.Resting) (hw : store.WellFormed)
  (he : preview.config.entryFile? store = some entry)
  (hr : (Assembly.ofGraph preview.registry (preview.graph store entry)).report? preview.config
    (preview.graph store entry) memo = some report)

include h hw he hr

/-- A report names the handles that its build gave. -/
theorem mem_handles_iff_of_report {handle : Handle} :
    handle ∈ report.importMap.handles ↔ ∃ path, (path, handle) ∈
      (Assembly.ofGraph preview.registry (preview.graph store entry)).registry.current := by
  obtain ⟨found, _, rfl⟩ := Option.map_eq_some_iff.mp hr
  exact (named_build h hw he).mem_handles_importMap

theorem entry_mem_handles_of_report : report.importMap.entry ∈ report.importMap.handles := by
  rw [mem_handles_iff_of_report h hw he hr]
  obtain ⟨found, hfound, rfl⟩ := Option.map_eq_some_iff.mp hr
  exact ⟨_, Table.mem_of_get?_eq_some hfound⟩

/-- Installing the generation of a report makes the handles that it names live and no others. -/
theorem fetch?_install_isSome_iff_of_report (handle : Handle) :
    (((Assembly.ofGraph preview.registry (preview.graph store entry)).registry.install
      report.generation).fetch? handle).isSome = true ↔ handle ∈ report.importMap.handles := by
  rw [Assembly.generation_of_report? hr, (building h store entry).fetch?_install_isSome_iff,
    mem_handles_iff_of_report h hw he hr]

/-- They have code before they are live, and it is the code that they are live with. -/
theorem exists_code_of_mem_report (handle : Handle)
    (hm : handle ∈ report.importMap.handles) :
    ∃ code,
      (Assembly.ofGraph preview.registry (preview.graph store entry)).registry.fetch? handle =
        some code ∧
      ((Assembly.ofGraph preview.registry (preview.graph store entry)).registry.install
        report.generation).fetch? handle = some code := by
  obtain ⟨path, hc⟩ := (mem_handles_iff_of_report h hw he hr).mp hm
  have hlive := (fetch?_install_isSome_iff_of_report h hw he hr handle).mpr hm
  obtain ⟨code, hcode⟩ := Option.isSome_iff_exists.mp hlive
  refine ⟨code, ?_, hcode⟩
  rwa [Assembly.generation_of_report? hr,
    (building h store entry).fetch?_install_of_mem_current hc] at hcode

end Reported

/-- A build that is ready shows its document. -/
theorem live_of_ready (h : preview.registry.Resting) (hw : store.WellFormed) {report : BuildReport}
    (hr : (preview.build store).status = .ready report) :
    (preview.build store).Live (some (preview.build store)) := by
  obtain ⟨entry, he, hreport, _, heq⟩ := install_of_ready hr
  have hcode := exists_code_of_mem_report h hw he hreport
  refine ⟨report, _, hr, congrArg Preview.document heq, rfl, ?_⟩
  rw [heq]
  refine ⟨rfl, fetch?_install_isSome_iff_of_report h hw he hreport, fun handle hm => ?_, _, rfl, rfl,
    entry_mem_handles_of_report h hw he hreport, ?_, ?_, rfl, ?_⟩
  · show some report.generation = some handle.generation
    rw [Assembly.generation_of_report? hreport, (building h store entry).generation,
      (generation_of_mem_report h hreport).2 handle hm]
  · show (List.filterMap _ report.importMap.handles).map Prod.fst = report.importMap.handles
    rw [List.map_filterMap]
    refine (List.filterMap_congr fun handle hm => ?_).trans List.filterMap_some
    obtain ⟨code, hfetched, -⟩ := hcode handle hm
    simp [hfetched]
  · intro handle code hm
    obtain ⟨found, hfound, hpair⟩ := List.mem_filterMap.mp hm
    obtain ⟨other, hother, hsame⟩ := Option.map_eq_some_iff.mp hpair
    obtain ⟨rfl, rfl⟩ := Prod.mk.inj hsame
    obtain ⟨kept, hfetched, hlive⟩ := hcode _ hfound
    rw [hfetched] at hother
    exact hlive.trans hother
  · show report.importMap.handles.filter _ = []
    rw [List.filter_eq_nil_iff]
    intro handle hm
    obtain ⟨code, hfetched, -⟩ := hcode handle hm
    simp [hfetched]

/-! ### The last build that was ready -/

theorem readyBuilds_cons (preview : Preview) (store : Store) (rest : List Store) :
    preview.readyBuilds (store :: rest) =
      preview.readyBuilds [store] ++ (preview.build store).readyBuilds rest := by
  simp only [readyBuilds]
  cases (preview.build store).status <;> rfl

theorem readyBuilds_of_ready {report : BuildReport} (h : (preview.build store).status = .ready report)
    (rest : List Store) : preview.readyBuilds (store :: rest) =
      preview.build store :: (preview.build store).readyBuilds rest := by
  rw [readyBuilds, h]

theorem readyBuilds_of_isFailed (h : (preview.build store).status.isFailed = true)
    (rest : List Store) :
    preview.readyBuilds (store :: rest) = (preview.build store).readyBuilds rest := by
  rw [readyBuilds]
  cases hs : (preview.build store).status with
  | ready report => rw [hs] at h; cases h
  | _ => rfl

/-- One build keeps what is live apart from what is not, whether it is ready or fails. -/
theorem Live.build {last : Option Preview} (hl : preview.Live last) (h : preview.registry.Resting)
    (hw : store.WellFormed) :
    (preview.build store).Live ((preview.readyBuilds [store]).getLast?.or last) := by
  rcases unchanged_build_or_ready h store with hsame | ⟨report, hr⟩
  · cases hr : (preview.build store).status with
    | ready report =>
      rw [readyBuilds_of_ready hr]
      exact live_of_ready h hw hr
    | _ => simpa [readyBuilds, hr] using hsame.live hl
  · rw [readyBuilds_of_ready hr]
    exact live_of_ready h hw hr

theorem Live.foldl_build {last : Option Preview} (hl : preview.Live last)
    (h : preview.registry.Resting) {history : List Store}
    (hw : ∀ store ∈ history, store.WellFormed) :
    (history.foldl Preview.build preview).Live ((preview.readyBuilds history).getLast?.or last) := by
  induction history generalizing preview last with
  | nil => exact hl
  | cons store rest ih =>
    obtain ⟨hstore, hrest⟩ := List.forall_mem_cons.mp hw
    rw [List.foldl_cons, readyBuilds_cons, List.getLast?_append, Option.or_assoc]
    exact ih (hl.build h hstore) (resting_build h store) hrest

/-- After any builds, either none was ready and nothing is live, or the live handles are those of
the last document that was ready and the sandbox holds what they fetch. -/
theorem live_after_builds (config : Config) (history : List Store)
    (hr : ∀ store ∈ history, store.Reachable) :
    (history.foldl Preview.build { config }).Live
      (readyBuilds { config } history).getLast? := by
  have hblank : Live { config } none := ⟨rfl, rfl, fun _ => rfl⟩
  have hlive := hblank.foldl_build Reachable.new.resting fun store hm => (hr store hm).wellFormed
  rwa [Option.or_none] at hlive

/-- A build that was ready and one that failed: what the first one showed is live. -/
theorem live_after_failure :
    let good := Store.empty.attempt (.createFile "/App.jsx" "run();\n")
    let broken := good.attempt (.createFile "/App.jsx" "run(;\n")
    let shown := Preview.build { config := {} } good
    (shown.build broken).status.isFailed = true ∧ (shown.build broken).Live (some shown) ∧
      shown.sandbox.context = some ⟨⟨1, 0⟩, [(⟨1, 0⟩, "run();\n")], [], []⟩ := by
  intro good broken shown
  have hgood : good.Reachable := .attempted _ .empty
  have hbroken : broken.Reachable := .attempted _ hgood
  have hshown : shown.status.isFailed = false ∧
      shown.status.report?.map (·.importMap.entry) = some ⟨1, 0⟩ := by decide +kernel
  have hfailed : (shown.build broken).status.isFailed = true := by decide +kernel
  have hcontext : shown.sandbox.context = some ⟨⟨1, 0⟩, [(⟨1, 0⟩, "run();\n")], [], []⟩ := by
    decide +kernel
  obtain ⟨report, hready, _⟩ := BuildStatus.exists_ready_of_map hshown
  clear_value broken good
  have hhistory : ∀ store ∈ [good, broken], store.Reachable := by
    simp [hgood, hbroken]
  have hlive := live_after_builds {} [good, broken] hhistory
  rw [readyBuilds_of_ready hready, readyBuilds_of_isFailed hfailed] at hlive
  exact ⟨hfailed, hlive, hcontext⟩

end Preview

end LivePreview
