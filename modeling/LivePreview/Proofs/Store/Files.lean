import LivePreview.Proofs.Store.FlatTree

/-!
# Where there are files

A path leads to a file by its segments, and the file stores these. A file that is created, deleted
or moved is there or gone afterwards and all others stay where they are; the other edits of files
and a new directory leave every file in its place.
-/
namespace LivePreview

/-! ### Finding a file -/

/-- The pieces of the path of a file in a well-formed tree: those that are not empty are names, and
none holds a separator. -/
theorem Store.WellFormed.free_of_isFile {store : Store} {path : Path} (h : store.WellFormed)
    (hf : store.isFile path = true) :
    (∀ name ∈ path.names, '/' ∉ name.toList) ∧ ∀ name ∈ path.segments, Path.IsName name := by
  rw [Store.isFile, Store.node?] at hf
  cases hn : store.root.get? path.segments with
  | none => rw [hn] at hf; cases hf
  | some node =>
    have hnames := (h.root.get? hn).1
    refine ⟨fun name hm => ?_, hnames⟩
    by_cases he : name = ""
    · subst he
      exact List.not_mem_nil
    · exact (hnames name (List.mem_filter.mpr ⟨hm, by simpa using he⟩)).not_mem

/-- A file of a well-formed tree stands at a path that can be written. -/
theorem Store.WellFormed.written_of_isFile {store : Store} {path : Path} (h : store.WellFormed)
    (hf : store.isFile path = true) : path.Written := by
  refine ⟨(h.free_of_isFile hf).1, fun he => ?_⟩
  have hroot : path.segments = [] := by
    rw [Path.segments, he]
    rfl
  rw [Store.isFile, Store.node?, hroot] at hf
  have hd := h.isDirectory
  cases hn : store.root with
  | file stored content => rw [hn] at hd; cases hd
  | directory stored children => rw [hn] at hf; cases hf

/-- A file of a well-formed tree that is found by a path without empty pieces has canonical names. -/
theorem Path.canonical_of_isFile {store : Store} {path : Path} (hw : store.WellFormed)
    (hf : store.isFile path = true) (hs : path.segments = path.names) : path.Canonical := by
  rw [Canonical, ← hs]
  exact (hw.free_of_isFile hf).2

/-- A file of a well-formed tree stores the segments by which it is found. -/
theorem Store.WellFormed.exists_node_of_isFile {store : Store} {path : Path} (h : store.WellFormed)
    (hf : store.isFile path = true) :
    ∃ content, store.node? path = some (.file ⟨path.segments⟩ content) := by
  rw [Store.isFile] at hf
  cases hn : store.node? path with
  | none => rw [hn] at hf; cases hf
  | some node =>
    rw [hn] at hf
    have hstored := (h.root.get? hn).2.path_eq
    cases node with
    | directory stored children => cases hf
    | file stored content =>
      obtain rfl : stored = ⟨path.segments⟩ := hstored
      exact ⟨content, rfl⟩

/-- A file is read under a path whose written form leads back to its segments. -/
theorem Store.exists_read_of_isFile {store : Store} {path : Path}
    (hp : Path.parse path.text = .ok ⟨path.segments⟩) (hf : store.isFile path = true) :
    ∃ content, store.read path.text = .ok content := by
  have hnode : store.node? ⟨path.segments⟩ = store.node? path := by
    simp [Store.node?, Path.segments]
  rw [Store.isFile] at hf
  cases hn : store.node? path with
  | none => rw [hn] at hf; cases hf
  | some node =>
    rw [hn] at hf
    cases node with
    | directory stored children => cases hf
    | file stored content =>
      exact ⟨content, bind_eq_ok.mpr ⟨⟨path.segments⟩, Store.parse_eq_ok_iff.mpr hp,
        Store.contentAt_eq_ok_iff.mpr ⟨stored, hnode.trans hn⟩⟩⟩

/-- A file of a well-formed tree is read under any path at which it is found. -/
theorem Store.WellFormed.exists_read_of_isFile {store : Store} {path : Path} (h : store.WellFormed)
    (hf : store.isFile path = true) : ∃ content, store.read path.text = .ok content :=
  Store.exists_read_of_isFile
    (Path.parse_text_of_segments (h.free_of_isFile hf).1 (h.free_of_isFile hf).2) hf

theorem Store.WellFormed.mem_files {store : Store} {path : Path} (h : store.WellFormed)
    (hf : store.isFile path = true) : ∃ node, (⟨path.segments⟩, node) ∈ store.files := by
  obtain ⟨content, hn⟩ := h.exists_node_of_isFile hf
  exact ⟨_, List.mem_filter.mpr
    ⟨List.mem_map.mpr ⟨_, Node.mem_nodes_of_get? hn, rfl⟩, rfl⟩⟩

/-! ### Files of a flat tree -/

namespace FlatTree

variable {tree tree' : FlatTree} {path p : CanonicalPath} {raw content old : String}

def HasFile (tree : FlatTree) (path : CanonicalPath) : Prop :=
  ∃ content, tree path = some (.file content)

/-- Moving a path to itself carries everything over too. -/
theorem Step.carried {rawSource rawTarget : String} {source target p p' : CanonicalPath}
    (h : Step tree (.rename rawSource rawTarget) tree')
    (hs : Path.parse rawSource = .ok source.path) (ht : Path.parse rawTarget = .ok target.path)
    (hp : p.path.rebase? source.path target.path = some p'.path) : tree' p' = tree p := by
  cases h with
  | rename hs' ht' _ _ _ _ _ _ hm =>
    obtain rfl := CanonicalPath.ext_path (Except.ok.inj (hs'.symm.trans hs))
    obtain rfl := CanonicalPath.ext_path (Except.ok.inj (ht'.symm.trans ht))
    exact hm.carried p p' hp
  | keepPlace hs' ht' _ _ =>
    have hsame : source = target :=
      CanonicalPath.ext_path (Except.ok.inj (hs.symm.trans (hs'.trans (ht'.symm.trans ht))))
    obtain ⟨rest, hrest, hrest'⟩ :=
      (Path.rebase?_eq_some_iff p.canonical source.canonical target.canonical).mp hp
    rw [← hsame, ← hrest] at hrest'
    rw [CanonicalPath.ext_names hrest']

end FlatTree

/-! ### Files of a store -/

namespace Store

variable {store store' : Store} {path : Path}

theorem isFile_iff_hasFile {p : CanonicalPath} :
    store.isFile p.path = true ↔ store.flat.HasFile p := by
  rw [isFile, FlatTree.HasFile]
  simp only [flat_eq_file_iff]
  cases store.node? p.path with
  | none => simp
  | some node => cases node <;> simp [Node.isFile, Node.kind]

/-- What moves takes its files along. -/
theorem WellFormed.isFile_rename {rawSource rawTarget : String} (h : store.WellFormed)
    (hr : store.rename rawSource rawTarget = .ok () store') {source target p p' : CanonicalPath}
    (hs : Path.parse rawSource = .ok source.path) (ht : Path.parse rawTarget = .ok target.path)
    (hp : p.path.rebase? source.path target.path = some p'.path) :
    store'.isFile p'.path = store.isFile p.path := by
  have hstep := step_of_rename hr
  have hflat := (hstep.flat h).carried hs ht hp
  rw [Bool.eq_iff_iff, isFile_iff_hasFile, isFile_iff_hasFile, FlatTree.HasFile, FlatTree.HasFile,
    hflat]

end Store

end LivePreview
