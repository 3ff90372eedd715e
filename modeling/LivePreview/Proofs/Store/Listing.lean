import Mathlib.Data.List.Nodup
import LivePreview.Proofs.Snapshot
import LivePreview.Proofs.Text.Utf8

/-!
# Listing files

Directories stand in front of what is below them, and children in the order of their names. So the
nodes of a well-formed tree are listed in the order of their paths, name by name, and the files among
them are those that a snapshot of the tree holds.
-/
namespace LivePreview

/-! ### The order of paths -/

/-- In front of the other in the order that compares paths name by name, and names byte by byte. -/
def Path.Precedes (path other : Path) : Prop :=
  path.names.map Fingerprint.utf8 < other.names.map Fingerprint.utf8

instance (path other : Path) : Decidable (path.Precedes other) := by
  unfold Path.Precedes; infer_instance

theorem map_utf8_lt {names names' : List String} (h : names < names') :
    names.map Fingerprint.utf8 < names'.map Fingerprint.utf8 := by
  induction h with
  | nil => exact .nil
  | rel h => exact .rel (Text.utf8_lt h)
  | cons _ ih => exact .cons ih

/-- Below different children of a directory the names of these decide. -/
theorem append_cons_lt {name name' : String} (h : name < name') (front names names' : List String) :
    front ++ name :: names < front ++ name' :: names' :=
  List.append_left_lt (.rel h)

theorem lt_append_cons (front : List String) (name : String) (names : List String) :
    front < front ++ name :: names := by
  have h : front ++ [] < front ++ name :: names := List.append_left_lt .nil
  rwa [List.append_nil] at h

/-- What is listed in the order of its paths is listed once. -/
theorem Path.nodup_of_names_lt {α : Type} {f : α → Path} {listed : List α}
    (h : listed.Pairwise fun a b => (f a).names < (f b).names) : listed.Nodup := by
  refine h.imp ?_
  rintro a _ hlt rfl
  exact List.lt_irrefl _ hlt

/-! ### The order of nodes -/

namespace Node

theorem childNodes_eq_flatMap (children : List (String × Node)) :
    childNodes children = children.flatMap fun entry => entry.2.nodes := by
  induction children with
  | nil => rfl
  | cons entry rest ih => rw [childNodes, ih, List.flatMap_cons]

/-- What is below a child stores a path with the name of the child in it. -/
theorem WellFormed.exists_names_of_mem_nodes {path : Path} {name : String} {child found : Node}
    (hn : Path.IsName name) (hc : child.WellFormed (path.child name)) (hm : found ∈ child.nodes) :
    ∃ names, found.path.names = path.names ++ name :: names := by
  obtain ⟨names, -, hp⟩ := hc.get?_of_mem_nodes hm
  refine ⟨names, ?_⟩
  rw [hp, Path.child_of_isName path hn, List.append_assoc]
  rfl

/-- Nodes are listed in the order of their paths. -/
theorem WellFormed.pairwise_nodes {path : Path} {node : Node} (h : node.WellFormed path) :
    node.nodes.Pairwise fun a b => a.path.names < b.path.names := by
  induction h with
  | file => exact List.pairwise_singleton _ _
  | @directory path children hs hn hc ih =>
    have hbelow : ∀ entry ∈ children, ∀ found ∈ entry.2.nodes,
        ∃ names, found.path.names = path.names ++ entry.1 :: names :=
      fun entry hm found hf => WellFormed.exists_names_of_mem_nodes (hn entry hm) (hc entry hm) hf
    rw [nodes, childNodes_eq_flatMap]
    refine List.pairwise_cons.mpr ⟨fun found hm => ?_, List.pairwise_flatMap.mpr ⟨ih, ?_⟩⟩
    · obtain ⟨entry, hentry, hf⟩ := List.mem_flatMap.mp hm
      obtain ⟨names, he⟩ := hbelow entry hentry found hf
      rw [he]
      exact lt_append_cons path.names entry.1 names
    · refine List.Pairwise.imp_of_mem ?_ hs
      intro entry entry' hentry hentry' hlt found hf found' hf'
      obtain ⟨names, he⟩ := hbelow entry hentry found hf
      obtain ⟨names', he'⟩ := hbelow entry' hentry' found' hf'
      rw [he, he']
      exact append_cons_lt hlt path.names names names'

end Node

namespace Store

/-! ### The list of files -/

theorem files_eq (store : Store) :
    store.files = (store.root.nodes.filter Node.isFile).map fun node => (node.path, node) := by
  rw [files, entries, List.filter_map]
  rfl

theorem mem_files_iff {store : Store} {path : Path} {node : Node} :
    (path, node) ∈ store.files ↔ node ∈ store.root.nodes ∧ node.isFile = true ∧ node.path = path := by
  rw [files_eq, List.mem_map]
  constructor
  · rintro ⟨found, hm, he⟩
    cases he
    obtain ⟨hm, hf⟩ := List.mem_filter.mp hm
    exact ⟨hm, hf, rfl⟩
  · rintro ⟨hm, hf, rfl⟩
    exact ⟨node, List.mem_filter.mpr ⟨hm, hf⟩, rfl⟩

variable {store : Store}

theorem WellFormed.pairwise_files (h : store.WellFormed) :
    store.files.Pairwise fun a b => a.1.names < b.1.names := by
  rw [files_eq]
  exact List.pairwise_map.mpr (h.root.pairwise_nodes.filter _)

theorem WellFormed.nodup_nodes (h : store.WellFormed) : store.root.nodes.Nodup :=
  Path.nodup_of_names_lt h.root.pairwise_nodes

/-- A file that is listed is read under its path. -/
theorem WellFormed.read_of_mem_files (h : store.WellFormed) {path : Path} {node : Node}
    (hm : (path, node) ∈ store.files) :
    ∃ content, node.content? = some content ∧ store.read path.text = .ok content := by
  obtain ⟨hnode, hf, rfl⟩ := mem_files_iff.mp hm
  obtain ⟨hc, hn⟩ := h.node?_of_mem_nodes hnode
  cases node with
  | directory path children => cases hf
  | file path content =>
    refine ⟨content, rfl, bind_eq_ok.mpr ⟨path, parse_eq_ok_iff.mpr hc.parse_text, ?_⟩⟩
    exact contentAt_eq_ok_iff.mpr ⟨path, hn⟩

/-- A snapshot of a well-formed tree holds each node once. -/
theorem WellFormed.perm_snapshot (h : store.WellFormed) :
    store.snapshot.entries.Perm
      (store.root.nodes.map fun node => (node.path.text, .ofNode node)) := by
  have hnodup : (store.root.nodes.map fun node =>
      (node.path.text, SnapshotEntry.ofNode node)).Nodup :=
    List.Nodup.map_on (fun a ha b hb he => h.eq_of_text_eq ha hb (Prod.mk.inj he).1) h.nodup_nodes
  rw [snapshot_entries]
  refine (List.perm_ext_iff_of_nodup (Table.sorted_ofList _).nodup hnodup).mpr fun entry =>
    Table.mem_ofList_iff fun pair hp pair' hp' he => ?_
  obtain ⟨node, hm, rfl⟩ := List.mem_map.mp hp
  obtain ⟨node', hm', rfl⟩ := List.mem_map.mp hp'
  exact congrArg SnapshotEntry.ofNode (h.eq_of_text_eq hm hm' he)

/-- The files of a snapshot are those that are listed, in the order of their written paths. -/
theorem WellFormed.perm_files (h : store.WellFormed) :
    (store.snapshot.entries.filter fun entry => entry.2.kind = .file).Perm
      (store.files.map fun (path, node) => (path.text, ⟨.file, node.content?, none⟩)) := by
  refine (h.perm_snapshot.filter _).trans (.of_eq ?_)
  rw [files_eq, List.filter_map, List.map_map]
  have hkind : ((fun entry : String × SnapshotEntry => decide (entry.2.kind = .file)) ∘
      fun node : Node => (node.path.text, SnapshotEntry.ofNode node)) = Node.isFile := by
    funext node
    cases node <;> rfl
  rw [hkind]
  refine List.map_congr_left fun node hm => ?_
  have hf := (List.mem_filter.mp hm).2
  cases node with
  | directory path children => cases hf
  | file path content => rfl

theorem WellFormed.mem_files_iff_get? (h : store.WellFormed) {path : Path} {node : Node} :
    (path, node) ∈ store.files ↔
      node.isFile = true ∧ node.path = path ∧ ∃ names, store.root.get? names = some node := by
  rw [mem_files_iff]
  constructor
  · rintro ⟨hm, hf, hp⟩
    obtain ⟨names, hn, -⟩ := h.root.get?_of_mem_nodes hm
    exact ⟨hf, hp, names, hn⟩
  · rintro ⟨hf, hp, names, hn⟩
    exact ⟨Node.mem_nodes_of_get? hn, hf, hp⟩

/-- The files of a reachable store are listed once each, in the order of their paths. They are the
files of its snapshot, and each is read under the path with which it is listed. -/
theorem Reachable.files_listed (h : store.Reachable) :
    (∀ path node, (path, node) ∈ store.files ↔
        node.isFile = true ∧ node.path = path ∧ ∃ names, store.root.get? names = some node) ∧
      (store.files.map Prod.fst).Pairwise Path.Precedes ∧
      (store.files.map Prod.fst).Nodup ∧
      (store.snapshot.entries.filter fun entry => entry.2.kind = .file).Perm
        (store.files.map fun (path, node) => (path.text, ⟨.file, node.content?, none⟩)) ∧
      (∀ path node, (path, node) ∈ store.files →
        ∃ content, node.content? = some content ∧ store.read path.text = .ok content) ∧
      store.fileCount = store.files.length := by
  have hw := h.wellFormed
  have hpairwise : (store.files.map Prod.fst).Pairwise fun a b => a.names < b.names :=
    List.pairwise_map.mpr hw.pairwise_files
  have hnodup : (store.files.map Prod.fst).Nodup :=
    Path.nodup_of_names_lt (f := id) hpairwise
  exact ⟨fun _ _ => hw.mem_files_iff_get?, hpairwise.imp map_utf8_lt, hnodup, hw.perm_files,
    fun _ _ hm => hw.read_of_mem_files hm, rfl⟩

/-- The order of the list is not that of the written paths: what is in a directory stands in front
of a file whose name begins with that of the directory and goes on with a blank. -/
theorem files_listed_beside_longer_name :
    let store := ((Store.empty.attempt (.createFile "/a-b" "1")).attempt
      (.createFile "/a/c" "2")).attempt (.rename "/a-b" "/a é")
    store.Reachable ∧ store.files.map (·.1.text) = ["/a/c", "/a é"] ∧
      (store.files.map Prod.fst).Pairwise Path.Precedes ∧
      store.snapshot.entries.map (·.1) = ["/", "/a", "/a é", "/a/c"] ∧
      (⟨["a é"]⟩, .file ⟨["a é"]⟩ "1") ∈ store.files ∧
      store.read "/a é" = .ok "1" := by
  intro store
  have h : store.Reachable := .attempted _ (.attempted _ (.attempted _ .empty))
  obtain ⟨hfiles, horder, -, -, hread, -⟩ := h.files_listed
  have hm : (⟨["a é"]⟩, .file ⟨["a é"]⟩ "1") ∈ store.files :=
    (hfiles _ _).mpr ⟨rfl, rfl, ["a é"], by rfl⟩
  obtain ⟨content, he, hr⟩ := hread _ _ hm
  obtain rfl : "1" = content := Option.some.inj he
  exact ⟨h, by decide +kernel, horder, by decide +kernel, hm, hr⟩

end Store

end LivePreview
