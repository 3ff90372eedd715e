import LivePreview.Preview
import LivePreview.Proofs.Registry

/-!
# Assemblies up to generations

Two assemblies of the same graph differ in nothing but the generation, so what is reported of them
differs in generation numbers and the statistics of the memo alone.
-/
namespace LivePreview

/-- The report without the number of the generation and the statistics of the memo. -/
def BuildReport.forget (report : BuildReport) : BuildReport :=
  { report with
    generation := 0
    importMap := report.importMap.forget
    memo := ⟨0, 0, 0⟩ }

def BuildStatus.forget : BuildStatus → BuildStatus
  | idle => .idle
  | building => .building
  | ready report => .ready report.forget
  | failed errors report => .failed errors (report.map BuildReport.forget)

/-- The same in everything but the generation. -/
structure Assembly.Alike (a b : Assembly) : Prop where
  registry : a.registry.Alike b.registry
  registered : a.registered = b.registered
  styles : a.styles = b.styles
  errors : a.errors = b.errors

namespace Assembly

theorem Alike.register {a b : Assembly} (h : a.Alike b) (path : Path) (code : String) :
    (a.register path code).Alike (b.register path code) where
  registry := h.registry.register path code
  registered := congrArg (· + 1) h.registered
  styles := h.styles
  errors := h.errors

theorem Alike.add {a b : Assembly} (h : a.Alike b) (lazyStyles : List Path) (m : Module) :
    (a.add lazyStyles m).Alike (b.add lazyStyles m) := by
  rw [Assembly.add, Assembly.add]
  cases m.output with
  | error error => exact ⟨h.registry, h.registered, h.styles, congrArg (· ++ [error]) h.errors⟩
  | ok code =>
    dsimp only
    split
    · split
      · have hr := h.register m.path (stylesheetModule code)
        exact ⟨hr.registry, hr.registered, congrArg (· ++ [⟨m.path, code⟩]) hr.styles, hr.errors⟩
      · exact ⟨h.registry, h.registered, congrArg (· ++ [⟨m.path, code⟩]) h.styles, h.errors⟩
    · exact h.register m.path code

/-- Two registries take the modules of a graph alike, whatever they hold already. -/
theorem alike_ofGraph (a b : Registry) (graph : ModuleGraph) :
    (ofGraph a graph).Alike (ofGraph b graph) := by
  have h : ∀ (modules : List Module) (lazyStyles : List Path) (a b : Assembly), a.Alike b →
      (modules.foldl (Assembly.add lazyStyles) a).Alike
        (modules.foldl (Assembly.add lazyStyles) b) := by
    intro modules lazyStyles
    induction modules with
    | nil => exact fun _ _ h => h
    | cons m rest ih => exact fun _ _ h => ih _ _ (h.add lazyStyles m)
  exact h _ _ _ _ ⟨.startGeneration a b, rfl, rfl, rfl⟩

theorem generation_register (assembly : Assembly) (path : Path) (code : String) :
    (assembly.register path code).registry.generation = assembly.registry.generation :=
  Registry.generation_register _ _ _

theorem installed_register (assembly : Assembly) (path : Path) (code : String) :
    (assembly.register path code).registry.installed = assembly.registry.installed :=
  Registry.installed_register _ _ _

/-- To register modules neither starts nor installs a generation. -/
theorem generation_add (lazyStyles : List Path) (assembly : Assembly) (m : Module) :
    (assembly.add lazyStyles m).registry.generation = assembly.registry.generation ∧
      (assembly.add lazyStyles m).registry.installed = assembly.registry.installed := by
  rw [Assembly.add]
  cases m.output with
  | error error => exact ⟨rfl, rfl⟩
  | ok code =>
    dsimp only
    split
    · split
      · exact ⟨generation_register _ _ _, installed_register _ _ _⟩
      · exact ⟨rfl, rfl⟩
    · exact ⟨generation_register _ _ _, installed_register _ _ _⟩

theorem generation_ofGraph (registry : Registry) (graph : ModuleGraph) :
    (ofGraph registry graph).registry.generation = registry.generation + 1 ∧
      (ofGraph registry graph).registry.installed = registry.installed := by
  have h : ∀ (modules : List Module) (lazyStyles : List Path) (assembly : Assembly),
      (modules.foldl (Assembly.add lazyStyles) assembly).registry.generation =
          assembly.registry.generation ∧
        (modules.foldl (Assembly.add lazyStyles) assembly).registry.installed =
          assembly.registry.installed := by
    intro modules lazyStyles
    induction modules with
    | nil => exact fun _ => ⟨rfl, rfl⟩
    | cons m rest ih =>
      intro assembly
      obtain ⟨hg, hi⟩ := generation_add lazyStyles assembly m
      obtain ⟨hg', hi'⟩ := ih (assembly.add lazyStyles m)
      exact ⟨hg'.trans hg, hi'.trans hi⟩
  exact h _ _ _

theorem generation_of_report? {assembly : Assembly} {config : Config} {graph : ModuleGraph}
    {memo : MemoStats} {report : BuildReport}
    (h : assembly.report? config graph memo = some report) :
    report.generation = assembly.registry.generation := by
  obtain ⟨entry, _, rfl⟩ := Option.map_eq_some_iff.mp h
  rfl

theorem Alike.forget_report? {a b : Assembly} (h : a.Alike b) (config : Config)
    (graph : ModuleGraph) (memo memo' : MemoStats) :
    (a.report? config graph memo).map BuildReport.forget =
      (b.report? config graph memo').map BuildReport.forget := by
  rw [report?, report?, Option.map_map, Option.map_map]
  have hs := h.registry.sequence_handle? graph.entry
  cases ha : a.registry.handle? graph.entry with
  | none =>
    rw [ha] at hs
    rw [Option.map_eq_none_iff.mp hs.symm]
    rfl
  | some handle =>
    rw [ha] at hs
    obtain ⟨handle', hb, he⟩ := Option.map_eq_some_iff.mp hs.symm
    rw [hb, Option.map_some, Option.map_some]
    have hforget : handle.forget = handle'.forget := congrArg (Handle.mk 0) he.symm
    dsimp only [Function.comp, BuildReport.forget]
    rw [Registry.forget_importMap, Registry.forget_importMap, h.registry.registrations, hforget,
      h.registered, h.styles]

end Assembly

end LivePreview
