import LivePreview.Proofs.Module.Memo
import LivePreview.Proofs.Module.Reach
import LivePreview.Proofs.Preview.Assembly

/-!
# Incremental builds

A preview that has been through any builds builds a store as a new preview does. What it remembers
of scripts is sound as long as no fingerprints collide, and what its registry holds of other
generations has no part in the build; only generation numbers and the statistics of the memo differ.
-/
namespace LivePreview

/-- What a build of the store hashes. -/
def Config.hashed (config : Config) (store : Store) : List (String × List (String × String)) :=
  match config.entryFile? store with
  | none => []
  | some entry =>
    (ModuleGraph.drafts config store entry).filterMap fun draft => config.hashed? store draft.path

/-- The drafts that the builds of the stores meet. -/
def Config.Meets (config : Config) (stores : List Store) (draft : Draft) : Prop :=
  ∃ store ∈ stores, ∃ entry, config.entryFile? store = some entry ∧
    draft ∈ ModuleGraph.drafts config store entry

/-- Without collisions the drafts that some builds meet are known by their keys. -/
theorem Config.keysAgree_meets {config : Config} {stores : List Store}
    (hr : ∀ store ∈ stores, store.Reachable)
    (hn : NoCollisions (stores.flatMap config.hashed)) : KeysAgree (config.Meets stores) := by
  have hinput : ∀ store ∈ stores, ∀ entry, config.entryFile? store = some entry → ∀ path,
      Draft.ofPath config store path ∈ ModuleGraph.drafts config store entry → ∀ input,
        config.hashed? store path = some input → input ∈ stores.flatMap config.hashed := by
    intro store hs entry he path hm input hi
    refine List.mem_flatMap.mpr ⟨store, hs, ?_⟩
    rw [hashed, he]
    exact List.mem_filterMap.mpr ⟨_, hm, by rw [Draft.path_ofPath]; exact hi⟩
  rintro a b ⟨store, hs, entry, he, ha⟩ ⟨store', hs', entry', he', hb⟩ key dialect dialect' linked
    linked' hbody hbody'
  obtain ⟨path, rfl⟩ := ModuleGraph.exists_path_of_mem_drafts ha
  obtain ⟨path', rfl⟩ := ModuleGraph.exists_path_of_mem_drafts hb
  exact Draft.linked_eq hn (hr store hs).wellFormed (hr store' hs').wellFormed
    (hinput store hs entry he path ha) (hinput store' hs' entry' he' path' hb) hbody hbody'

namespace Preview

/-- What builds of the stores leave behind. -/
structure Settled (config : Config) (stores : List Store) (preview : Preview) : Prop where
  config_eq : preview.config = config
  sound : preview.memo.Sound (config.Meets stores)
  bound : preview.registry.InstalledBound

variable {config : Config} {stores : List Store} {preview : Preview} {store : Store}

theorem settled_new (config : Config) (stores : List Store) :
    Settled config stores { config } where
  config_eq := rfl
  sound := .empty _
  bound := fun _ h => nomatch h

/-- The modules that a file reaches, each checked without any memo. -/
def graphOf (config : Config) (store : Store) (entry : Path) : ModuleGraph :=
  ⟨entry, (ModuleGraph.drafts config store entry).map Draft.complete⟩

theorem Settled.assemble (h : preview.Settled config stores)
    (ha : KeysAgree (config.Meets stores)) (hs : store ∈ stores) {entry : Path}
    (he : config.entryFile? store = some entry) :
    (preview.assemble store entry).1.memo.Sound (config.Meets stores) ∧
      (preview.assemble store entry).2 =
        (graphOf config store entry, .ofGraph preview.registry (graphOf config store entry)) := by
  have hk : ∀ draft ∈ ModuleGraph.drafts config store entry, config.Meets stores draft :=
    fun draft hm => ⟨store, hs, entry, he, hm⟩
  obtain ⟨hsound, hmodules⟩ := Memo.Sound.completeAll ha hk h.sound.startBuild
  obtain ⟨hconfig, _, _⟩ := h
  subst hconfig
  refine ⟨hsound.finishBuild, ?_⟩
  rw [Preview.assemble, ModuleGraph.walk]
  dsimp only
  rw [hmodules]
  rfl

/-! ### The end of a build -/

theorem forget_conclude {other : Preview} (hc : preview.config = other.config)
    {graph : ModuleGraph} {a b : Assembly} (h : a.Alike b) :
    (preview.conclude graph a).status.forget = (other.conclude graph b).status.forget := by
  have hr := h.forget_report? preview.config graph preview.memo.stats other.memo.stats
  rw [conclude, conclude, ← hc]
  cases ha : a.report? preview.config graph preview.memo.stats with
  | none =>
    rw [ha] at hr
    rw [Option.map_eq_none_iff.mp hr.symm]
    exact congrArg (fun errors => BuildStatus.failed (errors.map .module) none) h.errors
  | some report =>
    rw [ha] at hr
    obtain ⟨report', hb, hforget⟩ := Option.map_eq_some_iff.mp hr.symm
    rw [hb, h.errors]
    cases he : b.errors with
    | nil => exact congrArg BuildStatus.ready hforget.symm
    | cons error rest =>
      simp only [reject, BuildStatus.forget, Option.map_some, hforget, h.errors]

theorem settled_conclude (h : preview.Settled config stores) {graph : ModuleGraph}
    {assembly : Assembly} (hb : assembly.registry.InstalledBound) :
    (preview.conclude graph assembly).Settled config stores := by
  obtain ⟨hconfig, hsound, _⟩ := h
  rw [conclude]
  cases hr : assembly.report? preview.config graph preview.memo.stats with
  | none => exact ⟨hconfig, hsound, hb.discard _⟩
  | some report =>
    cases assembly.errors with
    | nil =>
      refine ⟨hconfig, hsound, ?_⟩
      change (assembly.registry.install report.generation).InstalledBound
      rw [Assembly.generation_of_report? hr]
      exact Registry.installedBound_install _
    | cons error rest => exact ⟨hconfig, hsound, hb.discard _⟩

theorem registrations_conclude {graph : ModuleGraph} {assembly : Assembly}
    (hown : assembly.registry.Own)
    (hi : assembly.registry.installed ≠ some assembly.registry.generation) :
    (preview.conclude graph assembly).registry.registrations =
      if (assembly.report? preview.config graph preview.memo.stats).isSome &&
          assembly.errors.isEmpty
      then assembly.registry.registrations else [] := by
  rw [conclude]
  cases hr : assembly.report? preview.config graph preview.memo.stats with
  | none => exact Registry.registrations_discard hi
  | some report =>
    cases he : assembly.errors with
    | nil =>
      have hinstall := Registry.registrations_install hown
      rw [← Assembly.generation_of_report? hr] at hinstall
      exact hinstall
    | cons error rest => exact Registry.registrations_discard hi

/-! ### Whole builds -/

theorem installedBound_ofGraph (h : preview.Settled config stores) (graph : ModuleGraph) :
    (Assembly.ofGraph preview.registry graph).registry.InstalledBound := by
  obtain ⟨hgeneration, hinstalled⟩ := Assembly.generation_ofGraph preview.registry graph
  intro generation hi
  rw [hinstalled] at hi
  have hle := h.bound generation hi
  omega

theorem installed_ofGraph_ne (h : preview.Settled config stores) (graph : ModuleGraph) :
    (Assembly.ofGraph preview.registry graph).registry.installed ≠
      some (Assembly.ofGraph preview.registry graph).registry.generation := by
  obtain ⟨hgeneration, hinstalled⟩ := Assembly.generation_ofGraph preview.registry graph
  rw [hgeneration, hinstalled]
  exact h.bound.startGeneration

/-- A build begins, and what it is made of is as before. -/
theorem Settled.start (h : preview.Settled config stores) : preview.start.Settled config stores :=
  ⟨h.config_eq, h.sound, h.bound⟩

theorem Settled.build_of_entry (h : preview.Settled config stores)
    (ha : KeysAgree (config.Meets stores)) (hs : store ∈ stores) {entry : Path}
    (he : config.entryFile? store = some entry) :
    ∃ next : Preview, next.Settled config stores ∧
      preview.build store = next.conclude (graphOf config store entry)
        (.ofGraph preview.registry (graphOf config store entry)) := by
  obtain ⟨hsound, hassemble⟩ := h.start.assemble ha hs he
  refine ⟨(preview.start.assemble store entry).1, ⟨h.config_eq, hsound, h.bound⟩, ?_⟩
  have hbuild : preview.build store = (preview.start.assemble store entry).1.conclude
      (preview.start.assemble store entry).2.1 (preview.start.assemble store entry).2.2 := by
    rw [build, h.start.config_eq, he]
    rfl
  rw [hbuild, hassemble]
  rfl

/-- A build leaves nothing behind that a later build could trip over. -/
theorem Settled.build (h : preview.Settled config stores) (ha : KeysAgree (config.Meets stores))
    (hs : store ∈ stores) : (preview.build store).Settled config stores := by
  cases he : config.entryFile? store with
  | none =>
    rw [Preview.build, h.start.config_eq, he]
    exact ⟨rfl, h.sound, h.bound⟩
  | some entry =>
    obtain ⟨next, hnext, hbuild⟩ := h.build_of_entry ha hs he
    rw [hbuild]
    exact settled_conclude hnext (installedBound_ofGraph h _)

theorem Settled.foldl_build (h : preview.Settled config stores)
    (ha : KeysAgree (config.Meets stores)) {history : List Store}
    (hs : ∀ store ∈ history, store ∈ stores) :
    (history.foldl Preview.build preview).Settled config stores := by
  induction history generalizing preview with
  | nil => exact h
  | cons store rest ih =>
    obtain ⟨hstore, hrest⟩ := List.forall_mem_cons.mp hs
    exact ih (h.build ha hstore) hrest

/-- Two previews that settled on the same configuration build a store alike. -/
theorem Settled.build_alike {other : Preview} (h : preview.Settled config stores)
    (ho : other.Settled config stores) (ha : KeysAgree (config.Meets stores))
    (hs : store ∈ stores) :
    (preview.build store).status.forget = (other.build store).status.forget ∧
      ∀ entry, config.entryFile? store = some entry →
        (preview.assemble store entry).2.2.registry.registrations =
            (other.assemble store entry).2.2.registry.registrations ∧
          (preview.build store).registry.registrations =
            (other.build store).registry.registrations := by
  cases he : config.entryFile? store with
  | none =>
    refine ⟨?_, fun entry h => nomatch h⟩
    rw [Preview.build, Preview.build, h.start.config_eq, ho.start.config_eq, he]
  | some entry =>
    obtain ⟨next, hnext, hbuild⟩ := h.build_of_entry ha hs he
    obtain ⟨next', hnext', hbuild'⟩ := ho.build_of_entry ha hs he
    have halike := Assembly.alike_ofGraph preview.registry other.registry
      (graphOf config store entry)
    have hconfig : next.config = next'.config := hnext.config_eq.trans hnext'.config_eq.symm
    refine ⟨?_, ?_⟩
    · rw [hbuild, hbuild']
      exact forget_conclude hconfig halike
    · intro found hfound
      obtain rfl := Option.some.inj hfound
      refine ⟨?_, ?_⟩
      · rw [(h.assemble ha hs he).2, (ho.assemble ha hs he).2]
        exact halike.registry.registrations
      · have hreport := congrArg Option.isSome (halike.forget_report? next.config
          (graphOf config store entry) next.memo.stats next'.memo.stats)
        rw [Option.isSome_map, Option.isSome_map] at hreport
        rw [hbuild, hbuild',
          registrations_conclude halike.registry.left (installed_ofGraph_ne h _),
          registrations_conclude halike.registry.right (installed_ofGraph_ne ho _),
          hreport, hconfig, halike.errors, halike.registry.registrations]

/-- A build after any history of builds answers what a new preview answers, in everything but
generation numbers and the statistics of the memo, and registers the same code behind handles with
the same numbers, provided that no fingerprints of what these builds hash collide. -/
theorem build_agrees_with_new (config : Config) (history : List Store) (store : Store)
    (hr : ∀ s ∈ store :: history, s.Reachable)
    (hn : NoCollisions ((store :: history).flatMap config.hashed)) :
    ((history.foldl Preview.build { config }).build store).status.forget =
        (Preview.build { config } store).status.forget ∧
      ∀ entry, config.entryFile? store = some entry →
        ((history.foldl Preview.build { config }).assemble store entry).2.2.registry.registrations =
            (Preview.assemble { config } store entry).2.2.registry.registrations ∧
          ((history.foldl Preview.build { config }).build store).registry.registrations =
            (Preview.build { config } store).registry.registrations := by
  have ha := Config.keysAgree_meets hr hn
  have hnew := settled_new config (store :: history)
  have hhistory := hnew.foldl_build ha (fun s hs => List.mem_cons_of_mem store hs)
  exact hhistory.build_alike hnew ha List.mem_cons_self

/-- A build that succeeds after one that succeeded and one that failed. -/
theorem build_agrees_after_failure :
    let first := (Store.empty.attempt (.createFile "/App.jsx" "import './a.css';\nrun();\n")).attempt
      (.createFile "/a.css" "p { }")
    let broken := first.attempt (.createFile "/App.jsx" "run(;\n")
    let fixed := broken.attempt (.createFile "/App.jsx" "import('./a.css');\n")
    let preview := [first, broken].foldl Preview.build { config := {} }
    preview.status.isFailed = true ∧ (preview.build fixed).status.isFailed = false ∧
      (preview.build fixed).status.forget = (Preview.build { config := {} } fixed).status.forget := by
  intro first broken fixed preview
  have hfirst : first.Reachable := .attempted _ (.attempted _ .empty)
  have hbroken : broken.Reachable := .attempted _ hfirst
  have hfixed : fixed.Reachable := .attempted _ hbroken
  refine ⟨by decide +kernel, by decide +kernel, ?_⟩
  refine (build_agrees_with_new {} [first, broken] fixed ?_ (by decide +kernel)).1
  intro store hm
  simp only [List.mem_cons, List.not_mem_nil, or_false] at hm
  rcases hm with rfl | rfl | rfl
  · exact hfixed
  · exact hfirst
  · exact hbroken

end Preview

end LivePreview
