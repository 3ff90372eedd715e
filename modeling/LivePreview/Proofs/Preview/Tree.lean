import LivePreview.Proofs.Preview.Build

/-!
# What a build depends on

Of the store a build reads the tree alone, and its status follows from the configuration, the memo
and the registry of the preview.
-/
namespace LivePreview

variable {store other : Store}

theorem ModuleGraph.drafts_of_root_eq (h : store.root = other.root) (config : Config)
    (entry : Path) : drafts config store entry = drafts config other entry := by
  obtain ⟨root, changes⟩ := store
  obtain ⟨root', changes'⟩ := other
  obtain rfl : root = root' := h
  have hfrom : ∀ fuel seen queue,
      draftsFrom config ⟨root, changes⟩ fuel seen queue =
        draftsFrom config ⟨root, changes'⟩ fuel seen queue := by
    intro fuel
    induction fuel with
    | zero => exact fun _ _ => rfl
    | succ fuel ih =>
      intro seen queue
      cases queue with
      | nil => rfl
      | cons path queue =>
        rw [draftsFrom, draftsFrom, ih]
        rfl
  exact hfrom _ _ _

namespace Preview

theorem build_of_root_eq (h : store.root = other.root) (preview : Preview) :
    preview.build store = preview.build other := by
  have hdrafts := ModuleGraph.drafts_of_root_eq h
  obtain ⟨root, changes⟩ := store
  obtain ⟨root', changes'⟩ := other
  obtain rfl : root = root' := h
  have hentry : preview.start.config.entryFile? ⟨root, changes⟩ =
      preview.start.config.entryFile? ⟨root, changes'⟩ := rfl
  rw [build, build, hentry]
  cases preview.start.config.entryFile? ⟨root, changes'⟩ with
  | none => rfl
  | some entry =>
    dsimp only
    rw [buildFrom, buildFrom, assemble, assemble, ModuleGraph.walk, ModuleGraph.walk, hdrafts]

theorem status_conclude_eq {a b : Preview} (hconfig : a.config = b.config) (hmemo : a.memo = b.memo)
    (graph : ModuleGraph) (assembly : Assembly) :
    (a.conclude graph assembly).status = (b.conclude graph assembly).status := by
  rw [conclude, conclude, hconfig, hmemo]
  split <;> rfl

/-- Subscriptions, requests and earlier documents have no part in the status of a build. -/
theorem status_build_eq {a b : Preview} (hconfig : a.config = b.config) (hmemo : a.memo = b.memo)
    (hregistry : a.registry = b.registry) (store : Store) :
    (a.build store).status = (b.build store).status := by
  cases he : a.config.entryFile? store with
  | none =>
    have he' : b.config.entryFile? store = none := hconfig ▸ he
    rw [build, build, start, start, he, he', hconfig]
  | some entry =>
    have hgraph : a.graph store entry = b.graph store entry := by
      rw [graph, graph, hconfig, hmemo]
    have hwalked : (a.walked store entry).config = (b.walked store entry).config := hconfig
    have hstats : (a.walked store entry).memo = (b.walked store entry).memo := by
      change (ModuleGraph.walk a.config store a.memo.startBuild entry).1.finishBuild = _
      rw [hconfig, hmemo]
      rfl
    rw [build_eq_conclude he, build_eq_conclude (hconfig ▸ he), hgraph, hregistry]
    exact status_conclude_eq hwalked hstats _ _

end Preview

end LivePreview
