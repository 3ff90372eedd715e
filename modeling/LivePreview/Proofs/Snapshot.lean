import LivePreview.Proofs.Binary.Codec
import LivePreview.Proofs.Command.Replay
import LivePreview.Proofs.Store.Reachable

/-!
# Lossless snapshots

A snapshot lists the nodes of a tree by their written paths, and no two nodes of a well-formed tree
share one. So the tree can be built anew from the entries, directory by directory, and two stores
have equal trees exactly when their snapshots, or the bytes of these, are equal.
-/
namespace LivePreview

open Binary

namespace Store

theorem WellFormed.node?_of_mem_nodes {store : Store} {node : Node} (h : store.WellFormed)
    (hm : node ∈ store.root.nodes) :
    node.path.Canonical ∧ store.node? node.path = some node := by
  obtain ⟨names, hf, hp⟩ := h.root.get?_of_mem_nodes hm
  have hp : node.path = ⟨names⟩ := hp
  have hc : node.path.Canonical := (h.root.of_mem_nodes hm).1
  refine ⟨hc, ?_⟩
  rw [Store.node?, hc.segments_eq, hp]
  exact hf

/-- No two nodes of a well-formed tree have the same written path. -/
theorem WellFormed.eq_of_text_eq {store : Store} {a b : Node} (h : store.WellFormed)
    (ha : a ∈ store.root.nodes) (hb : b ∈ store.root.nodes) (he : a.path.text = b.path.text) :
    a = b := by
  obtain ⟨hca, hfa⟩ := h.node?_of_mem_nodes ha
  obtain ⟨hcb, hfb⟩ := h.node?_of_mem_nodes hb
  have hp : a.path = b.path := hca.written.text_inj hcb.written he
  rw [hp, hfb] at hfa
  exact (Option.some.inj hfa).symm

/-! ### Listing the nodes -/

theorem snapshot_entries (store : Store) :
    store.snapshot.entries =
      Table.ofList (store.root.nodes.map fun node => (node.path.text, .ofNode node)) := by
  rw [snapshot, entries, List.map_map]
  rfl

/-- A snapshot shows the tree alone. -/
theorem snapshot_of_root_eq {store other : Store} (h : store.root = other.root) :
    store.snapshot = other.snapshot := by
  rw [snapshot, entries, h]
  rfl

theorem WellFormed.get?_snapshot {store : Store} {node : Node} (h : store.WellFormed)
    (hm : node ∈ store.root.nodes) :
    Table.get? node.path.text store.snapshot.entries = some (.ofNode node) := by
  rw [snapshot_entries]
  refine Table.get?_ofList (List.mem_map.mpr ⟨node, hm, rfl⟩) fun pair hpair he => ?_
  obtain ⟨other, hother, rfl⟩ := List.mem_map.mp hpair
  exact congrArg SnapshotEntry.ofNode (h.eq_of_text_eq hother hm he)

theorem exists_of_mem_snapshot {store : Store} {entry : String × SnapshotEntry}
    (h : entry ∈ store.snapshot.entries) :
    ∃ node ∈ store.root.nodes, (node.path.text, .ofNode node) = entry := by
  rw [snapshot_entries] at h
  exact List.mem_map.mp (Table.mem_of_mem_ofList h)

end Store

/-! ### Building the tree anew -/

namespace Snapshot

/-- Children that are listed in the order of their names are added one behind the other. -/
theorem addChildren_eq {build : Path → Except SnapshotError Node} {path : Path}
    {front back : List (String × Node)} (hs : Table.Sorted (front ++ back))
    (hn : ∀ entry ∈ back, Path.IsName entry.1)
    (hb : ∀ entry ∈ back, build (path.child entry.1) = .ok entry.2) :
    addChildren build path front (back.map (·.1)) = .ok (front ++ back) := by
  induction back generalizing front with
  | nil => rw [List.append_nil]; rfl
  | cons entry rest ih =>
    obtain ⟨hname, hnrest⟩ := List.forall_mem_cons.mp hn
    obtain ⟨hchild, hbrest⟩ := List.forall_mem_cons.mp hb
    have hlast : ∀ other ∈ front, other.1 < entry.1 :=
      fun other hm => (List.pairwise_append.mp hs).2.2 other hm entry List.mem_cons_self
    have hnew : entry.1 ∉ front.map Prod.fst := by
      intro hm
      obtain ⟨other, hother, he⟩ := List.mem_map.mp hm
      exact Std.lt_irrefl (he ▸ hlast other hother)
    rw [List.append_cons] at hs ⊢
    rw [← Table.insert_eq_append hlast] at hs ⊢
    exact addChildren_cons_eq_ok_iff.mpr ⟨hname, hnew, entry.2, hchild, ih hs hnrest hbrest⟩

/-- A well-formed node is built again where all its nodes are listed, with a depth that exceeds
theirs. -/
theorem node_eq {entries : List (String × SnapshotEntry)} {depth : Nat} {path : Path} {out : Node}
    (h : out.WellFormed path)
    (he : ∀ found ∈ out.nodes, Table.get? found.path.text entries = some (.ofNode found))
    (hd : ∀ found ∈ out.nodes, found.path.names.length < path.names.length + depth) :
    node entries depth path = .ok out := by
  induction h generalizing depth with
  | @file path content =>
    have hmem : Node.file path content ∈ (Node.file path content).nodes := List.mem_cons_self
    cases depth with
    | zero => exact absurd (hd _ hmem) (Nat.lt_irrefl _)
    | succ depth => exact node_succ_eq_ok_iff.mpr (.inl ⟨content, he _ hmem, rfl⟩)
  | @directory path children hs hn hc ih =>
    have hmem : Node.directory path children ∈ (Node.directory path children).nodes :=
      List.mem_cons_self
    cases depth with
    | zero => exact absurd (hd _ hmem) (Nat.lt_irrefl _)
    | succ depth =>
      have hbuild : ∀ entry ∈ children,
          node entries depth (path.child entry.1) = .ok entry.2 := by
        intro entry hentry
        have hbelow : ∀ found ∈ entry.2.nodes, found ∈ (Node.directory path children).nodes :=
          fun found hf => List.mem_cons_of_mem _ (Node.mem_childNodes hentry hf)
        refine ih entry hentry (fun found hf => he found (hbelow found hf)) fun found hf => ?_
        have hlt := hd found (hbelow found hf)
        rw [Path.child_of_isName path (hn entry hentry), List.length_append, List.length_singleton]
        omega
      have hchildren : addChildren (node entries depth) path [] (children.map (·.1)) =
          .ok children := addChildren_eq hs hn hbuild
      exact node_succ_eq_ok_iff.mpr (.inr ⟨_, children, he _ hmem, hchildren, rfl⟩)

theorem length_lt_depthLimit {snapshot : Snapshot} {entry : String × SnapshotEntry}
    (h : entry ∈ snapshot.entries) : entry.1.length < snapshot.depthLimit := by
  have hgeneral : ∀ (entries : List (String × SnapshotEntry)) (limit : Nat),
      limit ≤ entries.foldl (fun limit entry => max limit entry.1.length) limit ∧
        ∀ entry ∈ entries,
          entry.1.length ≤ entries.foldl (fun limit entry => max limit entry.1.length) limit := by
    intro entries
    induction entries with
    | nil => exact fun limit => ⟨Nat.le_refl _, fun _ hm => nomatch hm⟩
    | cons first rest ih =>
      intro limit
      obtain ⟨hlimit, hrest⟩ := ih (max limit first.1.length)
      have hfirst := Nat.le_trans (Nat.le_max_right limit first.1.length) hlimit
      exact ⟨Nat.le_trans (Nat.le_max_left _ _) hlimit, List.forall_mem_cons.mpr ⟨hfirst, hrest⟩⟩
  exact Nat.lt_succ_of_le ((hgeneral snapshot.entries 0).2 entry h)

/-- The snapshot of a well-formed tree is read back into that tree. -/
theorem toStore_snapshot {store : Store} (h : store.WellFormed) :
    store.snapshot.toStore = .ok { root := store.root } := by
  have hlisted := fun node (hm : node ∈ store.root.nodes) => h.get?_snapshot hm
  have hdepth : ∀ node ∈ store.root.nodes,
      node.path.names.length < Path.root.names.length + store.snapshot.depthLimit := by
    intro node hm
    have hlimit := length_lt_depthLimit (Table.mem_of_get?_eq_some (hlisted node hm))
    have hnames := node.path.length_names_le
    exact Nat.lt_of_le_of_lt hnames (Nat.lt_add_left _ hlimit)
  have hroot : node store.snapshot.entries store.snapshot.depthLimit .root = .ok store.root :=
    node_eq h.root hlisted hdepth
  refine toStore_eq_ok_iff.mpr ⟨hroot, Node.isFile_eq_false_iff.mpr h.isDirectory, rfl, ?_⟩
  intro entry hm
  obtain ⟨node, hnode, rfl⟩ := Store.exists_of_mem_snapshot hm
  exact ⟨node, hnode, rfl⟩

/-! ### Bytes -/

theorem faithful_kind : Faithful encodeKind decodeKind := by
  intro kind rest _
  cases kind with
  | file => rw [encodeKind, decodeKind, decodeTag_append (by decide)]; rfl
  | directory => rw [encodeKind, decodeKind, decodeTag_append (by decide)]; rfl

theorem faithful_entry : Faithful encodeEntry decodeEntry := by
  rintro ⟨path, kind, content, children⟩ rest hlength
  simp only [encodeEntry, List.length_append] at hlength
  have hpath := Faithful.string path
  have hkind := faithful_kind kind
  have hcontent := Faithful.string.option content
  have hchildren := (Faithful.string.list encodeString_ne_nil).option children
  simp only [encodeEntry, decodeEntry, List.append_assoc]
  rw [hpath _ (by omega)]
  simp only [Option.bind_eq_bind, Option.bind_some]
  rw [hkind _ (by omega)]
  simp only [Option.bind_some]
  rw [hcontent _ (by omega)]
  simp only [Option.bind_some]
  rw [hchildren _ (by omega)]
  rfl

theorem encodeEntry_ne_nil (entry : String × SnapshotEntry) : encodeEntry entry ≠ [] := by
  rw [encodeEntry, List.append_assoc, List.append_assoc]
  exact List.append_ne_nil_of_left_ne_nil (encodeString_ne_nil _) _

theorem faithful_entries : Faithful (encodeList encodeEntry) (decodeList decodeEntry) :=
  faithful_entry.list encodeEntry_ne_nil

theorem eq_of_encode_eq {a b : Snapshot} (hlength : a.encode.length < UInt64.size)
    (he : a.encode = b.encode) : a = b := by
  have hlength' : b.encode.length < UInt64.size := he ▸ hlength
  have happend : a.encode ++ [] = b.encode ++ [] := by rw [he]
  exact congrArg mk (faithful_entries.eq_of_append_eq hlength hlength' happend).1

end Snapshot

namespace Store

theorem decode_snapshot (store : Store) (rest : Bytes)
    (hlength : store.snapshot.encode.length < UInt64.size) :
    Snapshot.decode (store.snapshot.encode ++ rest) = .ok store.snapshot := by
  have hsorted : Table.Sorted store.snapshot.entries := Table.sorted_ofList _
  rw [Snapshot.decode, Snapshot.encode, Snapshot.faithful_entries _ rest hlength]
  dsimp only
  rw [Table.ofList_of_sorted hsorted]

/-- Trees are equal exactly when their snapshots are, however large they are. -/
theorem WellFormed.sameTree_iff_snapshot_eq {a b : Store} (ha : a.WellFormed) (hb : b.WellFormed) :
    a.sameTree b = true ↔ a.snapshot = b.snapshot := by
  refine ⟨fun h => snapshot_of_root_eq (sameTree_iff.mp h), fun he => sameTree_iff.mpr ?_⟩
  have hstore := Snapshot.toStore_snapshot ha
  rw [he, Snapshot.toStore_snapshot hb] at hstore
  exact (congrArg Store.root (Except.ok.inj hstore)).symm

/-- A reachable store comes back from the bytes of its snapshot, whatever stands behind them, and
tree, snapshot and bytes determine each other. A length is written with at most eight bytes, so the
bytes are no more than these can count. -/
theorem Reachable.snapshot_lossless {a b : Store} (ha : a.Reachable) (hb : b.Reachable)
    (hlength : a.snapshot.encode.length < UInt64.size) :
    (∀ rest, ∃ store,
        (Snapshot.decode (a.snapshot.encode ++ rest)).bind Snapshot.toStore = .ok store ∧
          store.sameTree a = true) ∧
      (a.sameTree b = true ↔ a.snapshot = b.snapshot) ∧
      (a.snapshot = b.snapshot ↔ a.snapshot.encode = b.snapshot.encode) := by
  have hback : ∀ rest, ∃ store,
      (Snapshot.decode (a.snapshot.encode ++ rest)).bind Snapshot.toStore = .ok store ∧
        store.sameTree a = true := by
    intro rest
    refine ⟨{ root := a.root }, ?_, sameTree_iff.mpr rfl⟩
    rw [a.decode_snapshot rest hlength]
    exact Snapshot.toStore_snapshot ha.wellFormed
  exact ⟨hback, ha.wellFormed.sameTree_iff_snapshot_eq hb.wellFormed,
    congrArg Snapshot.encode, Snapshot.eq_of_encode_eq hlength⟩

theorem snapshot_lossless_after_rename :
    let a := (Store.empty.attempt (.createFile "/a/b" "é")).attempt (.rename "/a" "/c")
    let b := Store.empty.attempt (.createFile "/c/b" "é")
    a.snapshot.encode.length < UInt64.size ∧ a.snapshot.encode = b.snapshot.encode ∧
      ∃ store, (Snapshot.decode (a.snapshot.encode ++ [7])).bind Snapshot.toStore = .ok store ∧
        store.sameTree a = true := by
  have hlossless := @Reachable.snapshot_lossless _ (Store.empty.attempt (.createFile "/c/b" "é"))
    (.attempted (.rename "/a" "/c") (.attempted (.createFile "/a/b" "é") .empty))
    (.attempted _ .empty) (by decide +kernel)
  obtain ⟨hback, htree, hbytes⟩ := hlossless
  exact ⟨by decide +kernel, hbytes.mp (htree.mp (by decide +kernel)), hback [7]⟩

end Store

end LivePreview
