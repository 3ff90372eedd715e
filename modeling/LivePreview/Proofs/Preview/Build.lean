import LivePreview.Proofs.Module.Memo
import LivePreview.Proofs.Module.Reach
import LivePreview.Proofs.Preview.Assembly
import LivePreview.Proofs.Registry.Generation

/-!
# What a build does

The graph of a build has one module for each draft of the walk. Its assembly registers what the
modules serve, in their order, in a generation beside the live one. `Preview.outcome_build` says in
three cases what a build comes to.
-/
namespace LivePreview

/-! ### The modules of a walk -/

/-- The module is the draft with some output, the known one if nothing was left to do. -/
def Draft.Completes (draft : Draft) (m : Module) : Prop :=
  ∃ output, m = draft.withOutput output ∧ ∀ known, draft.body = .done known → output = known

theorem Draft.Completes.path_eq {draft : Draft} {m : Module} (h : draft.Completes m) :
    m.path = draft.path := by
  obtain ⟨output, rfl, _⟩ := h
  rfl

theorem Memo.completes_complete (memo : Memo) (draft : Draft) :
    draft.Completes (memo.complete draft).2 := by
  have hstep := step_complete memo draft
  have hscript : ∀ {key : MemoKey} {output : Except ModuleError String}, draft.key? = some key →
      draft.Completes (draft.withOutput output) := by
    intro key output hk
    refine ⟨output, rfl, fun known hb => ?_⟩
    cases (Draft.key?_of_done hb).symm.trans hk
  generalize (memo.complete draft).1 = next, (memo.complete draft).2 = m at *
  cases hstep with
  | done hb => exact ⟨_, rfl, fun known hknown => DraftBody.done.inj (hb.symm.trans hknown)⟩
  | hit hk _ => exact hscript hk
  | passed hk _ _ => exact hscript hk
  | failed hk _ _ => exact hscript hk

theorem Memo.exists_completes_of_mem {memo : Memo} {drafts : List Draft} {m : Module}
    (h : m ∈ (memo.completeAll drafts).2) : ∃ draft ∈ drafts, draft.Completes m := by
  obtain ⟨draft, hd, reached, rfl, -⟩ := exists_complete_of_mem h
  exact ⟨draft, hd, reached.completes_complete draft⟩

theorem Memo.map_path_completeAll (memo : Memo) (drafts : List Draft) :
    (memo.completeAll drafts).2.map (·.path) = drafts.map (·.path) := by
  induction drafts generalizing memo with
  | nil => rfl
  | cons draft rest ih =>
    rw [Memo.completeAll]
    dsimp only
    rw [List.map_cons, List.map_cons, ih, (memo.completes_complete draft).path_eq]

namespace ModuleGraph

variable {config : Config} {store : Store} {memo : Memo} {entry : Path}

theorem nodup_walk : ((walk config store memo entry).2.modules.map (·.path)).Nodup := by
  have hd := nodup_drafts config store entry
  rwa [← memo.map_path_completeAll] at hd

theorem breadthFirst_walk (hw : store.WellFormed) :
    config.BreadthFirst store entry ((walk config store memo entry).2.modules.map (·.path)) := by
  have hd := breadthFirst_drafts hw config entry
  rwa [← memo.map_path_completeAll] at hd

/-- A module is the completed draft of the file at its path. -/
theorem completes_of_mem_walk {m : Module} (h : m ∈ (walk config store memo entry).2.modules) :
    (Draft.ofPath config store m.path).Completes m := by
  have hm : m ∈ (memo.completeAll (drafts config store entry)).2 := h
  obtain ⟨draft, hd, hc⟩ := Memo.exists_completes_of_mem hm
  obtain ⟨path, rfl⟩ := exists_path_of_mem_drafts hd
  rw [hc.path_eq, Draft.path_ofPath]
  exact hc

theorem kind_of_mem_walk {m : Module} (hm : m ∈ (walk config store memo entry).2.modules) :
    m.kind = ModuleKind.ofPath config m.path := by
  obtain ⟨output, he, _⟩ := completes_of_mem_walk hm
  have hkind : m.kind = (Draft.ofPath config store m.path).kind := congrArg Module.kind he
  rw [hkind, Draft.kind_ofPath]

end ModuleGraph

/-! ### What is registered -/

/-- The code of a module of the kind, made from its output. -/
def ModuleKind.serve (kind : ModuleKind) (output : String) : String :=
  if kind = .stylesheet then stylesheetModule output else output

namespace Module

/-- What an assembly registers of a module, if anything. -/
def served? (lazyStyles : List Path) (m : Module) : Option (Path × String) :=
  match m.output with
  | .error _ => none
  | .ok code =>
    if m.kind = .stylesheet then
      if m.path ∈ lazyStyles then some (m.path, stylesheetModule code) else none
    else some (m.path, code)

/-- The part of a module in the styles of the page. -/
def style? (m : Module) : Option Stylesheet :=
  match m.output with
  | .error _ => none
  | .ok code => if m.kind = .stylesheet then some ⟨m.path, code⟩ else none

def error? (m : Module) : Option ModuleError :=
  match m.output with
  | .error error => some error
  | .ok _ => none

theorem served?_eq_some_iff {lazyStyles : List Path} {m : Module} {path : Path} {code : String} :
    m.served? lazyStyles = some (path, code) ↔
      m.path = path ∧ (m.kind ≠ .stylesheet ∨ path ∈ lazyStyles) ∧
        ∃ output, m.output = .ok output ∧ m.kind.serve output = code := by
  rw [served?]
  cases m.output with
  | error error => simp
  | ok output =>
    dsimp only
    by_cases hk : m.kind = .stylesheet
    · rw [if_pos hk]
      by_cases hl : m.path ∈ lazyStyles
      · rw [if_pos hl]
        simp only [Option.some.injEq, Prod.mk.injEq, ModuleKind.serve, hk, Except.ok.injEq]
        constructor
        · rintro ⟨rfl, rfl⟩
          exact ⟨rfl, .inr hl, output, rfl, by simp⟩
        · rintro ⟨rfl, _, _, rfl, hc⟩
          exact ⟨rfl, by simpa using hc⟩
      · rw [if_neg hl]
        simp only [reduceCtorEq, false_iff]
        rintro ⟨rfl, hne | hm, _⟩
        · exact hne hk
        · exact hl hm
    · rw [if_neg hk]
      simp [ModuleKind.serve, hk]

theorem path_of_served? {lazyStyles : List Path} {m : Module} {entry : Path × String}
    (h : m.served? lazyStyles = some entry) : entry.1 = m.path :=
  (served?_eq_some_iff.mp h).1.symm

end Module

/-- What the modules of a graph serve, in their order. -/
def ModuleGraph.served (graph : ModuleGraph) : List (Path × String) :=
  graph.modules.filterMap (Module.served? (graph.modules.flatMap (·.lazyStyles)))

theorem ModuleGraph.nodup_served {graph : ModuleGraph} (h : (graph.modules.map (·.path)).Nodup) :
    (graph.served.map Prod.fst).Nodup := by
  rw [List.Nodup, List.pairwise_map] at h ⊢
  refine List.Pairwise.filterMap _ (fun m m' hne entry he entry' he' heq => hne ?_) h
  rw [← Module.path_of_served? he, ← Module.path_of_served? he', heq]

namespace Assembly

variable {old : Registry} {served : List (Path × String)} {lazyStyles : List Path}
  {assembly : Assembly}

theorem building_add (h : old.Building served assembly.registry) {m : Module}
    (hp : m.path ∉ served.map Prod.fst) :
    old.Building (served ++ (m.served? lazyStyles).toList)
      (assembly.add lazyStyles m).registry := by
  rw [add, Module.served?]
  cases m.output with
  | error error => simpa using h
  | ok code =>
    dsimp only
    split
    · split
      · exact h.register hp _
      · simpa using h
    · exact h.register hp _

theorem styles_add (m : Module) :
    (assembly.add lazyStyles m).styles = assembly.styles ++ m.style?.toList := by
  rw [add, Module.style?]
  cases m.output with
  | error error => simp
  | ok code =>
    dsimp only
    split
    · split <;> rfl
    · simp [register]

theorem errors_add (m : Module) :
    (assembly.add lazyStyles m).errors = assembly.errors ++ m.error?.toList := by
  rw [add, Module.error?]
  cases m.output with
  | error error => rfl
  | ok code =>
    dsimp only
    split
    · split <;> simp [register]
    · simp [register]

/-- An assembly holds what the modules serve, their styles and their errors. -/
theorem ofGraph_spec {graph : ModuleGraph} (hb : old.Bounded)
    (hn : (graph.modules.map (·.path)).Nodup) :
    old.Building graph.served (ofGraph old graph).registry ∧
      (ofGraph old graph).styles = graph.modules.filterMap Module.style? ∧
      (ofGraph old graph).errors = graph.modules.filterMap Module.error? := by
  have h : ∀ (modules : List Module) (lazyStyles : List Path) (assembly : Assembly)
      (served : List (Path × String)), old.Building served assembly.registry →
      (served.map Prod.fst ++ modules.map (·.path)).Nodup →
      let done := modules.foldl (add lazyStyles) assembly
      old.Building (served ++ modules.filterMap (Module.served? lazyStyles)) done.registry ∧
        done.styles = assembly.styles ++ modules.filterMap Module.style? ∧
        done.errors = assembly.errors ++ modules.filterMap Module.error? := by
    intro modules lazyStyles
    induction modules with
    | nil =>
      intro assembly served hs _
      exact ⟨by simpa using hs, by simp, by simp⟩
    | cons m rest ih =>
      intro assembly served hs hn
      have hp : m.path ∉ served.map Prod.fst := fun hm =>
        (List.nodup_append.mp hn).2.2 _ hm _ (by simp) rfl
      have hrest : ((served ++ (m.served? lazyStyles).toList).map Prod.fst ++
          rest.map (·.path)).Nodup := by
        refine hn.sublist ?_
        rw [List.map_append, List.append_assoc, List.map_cons]
        refine List.Sublist.append_left ?_ _
        cases hm : m.served? lazyStyles with
        | none => exact List.sublist_cons_self _ _
        | some entry => simp [Module.path_of_served? hm]
      obtain ⟨hbuilding, hstyles, herrors⟩ := ih _ _ (building_add hs hp) hrest
      refine ⟨?_, ?_, ?_⟩
      · rw [List.foldl_cons, List.filterMap_cons]
        cases hm : m.served? lazyStyles with
        | none => simpa [hm] using hbuilding
        | some entry => simpa [hm] using hbuilding
      · rw [List.foldl_cons, hstyles, styles_add, List.filterMap_cons]
        cases m.style? <;> simp
      · rw [List.foldl_cons, herrors, errors_add, List.filterMap_cons]
        cases m.error? <;> simp
  have hall := h graph.modules (graph.modules.flatMap (·.lazyStyles))
    { registry := old.startGeneration } [] (.startGeneration hb) (by simpa using hn)
  simpa [ofGraph, ModuleGraph.served] using hall

end Assembly

/-! ### What a build comes to -/

/-- A status with a report tells by `isFailed` which of the two it is. -/
theorem BuildStatus.exists_ready_of_map {α : Type} {status : BuildStatus} {f : BuildReport → α} {a : α}
    (h : status.isFailed = false ∧ status.report?.map f = some a) :
    ∃ report, status = .ready report ∧ f report = a := by
  obtain ⟨hf, hr⟩ := h
  cases status with
  | ready report => exact ⟨report, rfl, Option.some.inj hr⟩
  | failed errors report => cases hf
  | idle => cases hr
  | building => cases hr

namespace Preview

/-- The modules that an entry reaches, as this preview completes them. -/
def graph (preview : Preview) (store : Store) (entry : Path) : ModuleGraph :=
  (ModuleGraph.walk preview.config store preview.memo.startBuild entry).2

/-- The preview in a build once the modules are put together: nothing is live yet. -/
def walked (preview : Preview) (store : Store) (entry : Path) : Preview :=
  (preview.start.assemble store entry).1

/-- The preview after a build. -/
inductive Outcome (preview : Preview) (store : Store) : Preview → Prop
  | missing (he : preview.config.entryFile? store = none) :
      Outcome preview store
        { preview.start with
          status := .failed [.missingEntry preview.config.entryPoints] none }
  | ready {entry : Path} {report : BuildReport} (he : preview.config.entryFile? store = some entry)
      (hr : (Assembly.ofGraph preview.registry (preview.graph store entry)).report? preview.config
        (preview.graph store entry) (preview.walked store entry).memo.stats = some report)
      (hn : (Assembly.ofGraph preview.registry (preview.graph store entry)).errors = []) :
      Outcome preview store ((preview.walked store entry).install
        (.ofGraph preview.registry (preview.graph store entry)) report)
  | failed {entry : Path} (he : preview.config.entryFile? store = some entry)
      (report : Option BuildReport)
      (hr : (Assembly.ofGraph preview.registry (preview.graph store entry)).report? preview.config
        (preview.graph store entry) (preview.walked store entry).memo.stats = report) :
      Outcome preview store ((preview.walked store entry).reject
        (.ofGraph preview.registry (preview.graph store entry)) report)

theorem build_eq_conclude {preview : Preview} {store : Store} {entry : Path}
    (he : preview.config.entryFile? store = some entry) :
    preview.build store = (preview.walked store entry).conclude (preview.graph store entry)
      (.ofGraph preview.registry (preview.graph store entry)) := by
  have hconfig : preview.start.config = preview.config := rfl
  rw [build, hconfig, he]
  rfl

theorem outcome_build (preview : Preview) (store : Store) :
    preview.Outcome store (preview.build store) := by
  cases he : preview.config.entryFile? store with
  | none =>
    have hconfig : preview.start.config = preview.config := rfl
    rw [build, hconfig, he]
    exact .missing he
  | some entry =>
    have hwalked : (preview.walked store entry).config = preview.config := rfl
    rw [build_eq_conclude he, conclude, hwalked]
    split
    · rename_i report hr hn
      exact .ready he hr hn
    · exact .failed he _ rfl

variable {config : Config} {preview : Preview} {store : Store}

/-- A build that is ready installed what it put together, and found no error. -/
theorem install_of_ready {report : BuildReport}
    (h : (preview.build store).status = .ready report) :
    ∃ entry, preview.config.entryFile? store = some entry ∧
      (Assembly.ofGraph preview.registry (preview.graph store entry)).report? preview.config
        (preview.graph store entry) (preview.walked store entry).memo.stats = some report ∧
      (Assembly.ofGraph preview.registry (preview.graph store entry)).errors = [] ∧
      preview.build store = (preview.walked store entry).install
        (.ofGraph preview.registry (preview.graph store entry)) report := by
  have ho := preview.outcome_build store
  generalize preview.build store = built at ho h ⊢
  cases ho with
  | missing he => cases h
  | @ready entry found he hr hn =>
    obtain rfl : found = report := BuildStatus.ready.inj h
    exact ⟨entry, he, hr, hn, rfl⟩
  | failed he report hr => cases h

theorem config_build (preview : Preview) (store : Store) :
    (preview.build store).config = preview.config := by
  generalize preview.build store = built, preview.outcome_build store = h
  cases h <;> rfl

theorem building (h : preview.registry.Resting) (store : Store) (entry : Path) :
    preview.registry.Building (preview.graph store entry).served
      (Assembly.ofGraph preview.registry (preview.graph store entry)).registry :=
  (Assembly.ofGraph_spec h.bounded ModuleGraph.nodup_walk).1

theorem resting_build (h : preview.registry.Resting) (store : Store) :
    (preview.build store).registry.Resting := by
  have ho := preview.outcome_build store
  generalize preview.build store = built at ho ⊢
  cases ho with
  | missing he => exact h
  | @ready entry report he hr hn =>
    have hinstall := (building h store entry).resting_install
    rw [← Assembly.generation_of_report? hr] at hinstall
    exact hinstall
  | @failed entry he report hr => exact (building h store entry).resting_discard h

/-- The previews that a new one becomes by its operations. -/
inductive Reachable (config : Config) : Preview → Prop
  | new : Reachable config { config }
  | watched {preview : Preview} (store : Store) (h : Reachable config preview) :
      Reachable config (preview.watch store).1
  | refreshed {preview : Preview} (h : Reachable config preview) :
      Reachable config preview.requestRefresh
  | collected {preview : Preview} (store : Store) (h : Reachable config preview) :
      Reachable config (preview.collectChanges store).1
  | built {preview : Preview} (store : Store) (h : Reachable config preview) :
      Reachable config (preview.build store)

/-- To collect changes asks for a build at most. -/
theorem collectChanges_eq (preview : Preview) (store : Store) :
    (preview.collectChanges store).1 = preview ∨
      (preview.collectChanges store).1 = preview.trigger := by
  rw [collectChanges]
  split <;> split <;> simp

theorem Reachable.config_eq (h : Reachable config preview) : preview.config = config := by
  induction h with
  | new => rfl
  | watched store _ ih => exact ih
  | refreshed _ ih => exact ih
  | @collected preview store _ ih =>
    rcases preview.collectChanges_eq store with he | he <;> rw [he] <;> exact ih
  | @built preview store _ ih => rw [config_build, ih]

theorem Reachable.resting (h : Reachable config preview) : preview.registry.Resting := by
  induction h with
  | new => exact ⟨fun _ h => absurd rfl h, fun _ h => nomatch h⟩
  | watched store _ ih => exact ih
  | refreshed _ ih => exact ih
  | @collected preview store _ ih =>
    rcases preview.collectChanges_eq store with he | he <;> rw [he] <;> exact ih
  | built store _ ih => exact resting_build ih store

end Preview

end LivePreview
