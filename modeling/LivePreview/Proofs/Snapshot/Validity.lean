import Mathlib.Data.List.Sort
import Mathlib.Data.String.Basic
import Mathlib.Tactic.MkIffOfInductiveProp
import LivePreview.Proofs.Snapshot

/-!
# Valid snapshots

A snapshot describes a tree when its root is a directory, every entry has the fields of its kind,
and the entries are the root and the listed children, each of which is listed once. Exactly these
snapshots are read, and what is read lists the same entries again, each with its children in order.
-/
namespace LivePreview

/-! ### Entries -/

namespace SnapshotEntry

/-- A file has a content alone, a directory its children alone. -/
def IsShaped (entry : SnapshotEntry) : Prop :=
  match entry.kind with
  | .file => entry.content.isSome = true ∧ entry.children = none
  | .directory => entry.content = none ∧ entry.children.isSome = true

instance (entry : SnapshotEntry) : Decidable entry.IsShaped := by
  unfold IsShaped; split <;> infer_instance

/-- The names that the entry lists. -/
def names (entry : SnapshotEntry) : List String := entry.children.getD []

/-- The entry with its children in increasing order. -/
def sortChildren (entry : SnapshotEntry) : SnapshotEntry :=
  { entry with children := entry.children.map (·.insertionSort (· ≤ ·)) }

/-- The entry tells kind and content of a node, and the names of its children in some order. -/
inductive Describes : SnapshotEntry → Node → Prop
  | file {path : Path} {content : String} :
      Describes ⟨.file, some content, none⟩ (.file path content)
  | directory {path : Path} {names : List String} {children : List (String × Node)}
      (h : names.Perm (children.map Prod.fst)) :
      Describes ⟨.directory, none, some names⟩ (.directory path children)

end SnapshotEntry

namespace Snapshot

def keys (snapshot : Snapshot) : List String := snapshot.entries.map Prod.fst

/-- The key of a child. -/
def childKey (key name : String) : String :=
  if key = "/" then "/" ++ name else key ++ "/" ++ name

/-- The entries are those of a tree. -/
@[mk_iff]
structure Valid (snapshot : Snapshot) : Prop where
  root : ∃ entry ∈ snapshot.entries, entry.1 = "/" ∧ entry.2.kind = .directory
  shaped : ∀ entry ∈ snapshot.entries, entry.2.IsShaped
  names : ∀ entry ∈ snapshot.entries, entry.2.names.Nodup ∧
    ∀ name ∈ entry.2.names, Path.IsName name ∧ childKey entry.1 name ∈ snapshot.keys
  listed : ∀ entry ∈ snapshot.entries, entry.1 ≠ "/" →
    ∃ parent ∈ snapshot.entries, parent.2.kind = .directory ∧
      ∃ name ∈ parent.2.names, childKey parent.1 name = entry.1

instance (snapshot : Snapshot) : Decidable snapshot.Valid :=
  decidable_of_iff _ (valid_iff snapshot).symm

/-- The same entries, each with its children in order. -/
def sortChildren (snapshot : Snapshot) : Snapshot :=
  ⟨snapshot.entries.map fun entry => (entry.1, entry.2.sortChildren)⟩

end Snapshot

/-! ### Keys of children -/

namespace Path

theorem Canonical.text_child {path : Path} (h : path.Canonical) {name : String} (hn : IsName name) :
    (path.child name).text = Snapshot.childKey path.text name := by
  rw [child_of_isName path hn, Snapshot.childKey]
  by_cases hr : path = .root
  · subst hr
    rw [if_pos text_root]
    simp [root, text]
  · have hne : path.names ≠ [] := fun he => hr (ext_names he)
    rw [if_neg (mt h.text_eq_iff.mp hr), text_append_names path hne (by simp),
      String.intercalate_singleton]

end Path

namespace Node.WellFormed

variable {node : Node}

/-- A child is written with the key that its directory lists. -/
theorem text_child (h : WellFormed .root node) {path : Path} {children : List (String × Node)}
    (hd : .directory path children ∈ node.nodes) {name : String} {child : Node}
    (hc : (name, child) ∈ children) :
    Path.IsName name ∧ child.path.text = Snapshot.childKey path.text name := by
  obtain ⟨hcanonical, hw⟩ := h.of_mem_nodes hd
  have hname := hw.isName hc
  refine ⟨hname, ?_⟩
  rw [(hw.child hc).path_eq]
  exact hcanonical.text_child hname

end Node.WellFormed

namespace Snapshot

/-! ### Adding children -/

variable {build : Path → Except SnapshotError Node} {path : Path}

/-- The children of a directory are the added ones and those that were there, each built at its
path. -/
theorem addChildren_spec {names : List String} {children out : List (String × Node)}
    (h : addChildren build path children names = .ok out) :
    (out.map Prod.fst).Perm (names ++ children.map Prod.fst) ∧
      ∀ entry ∈ out, entry ∈ children ∨ build (path.child entry.1) = .ok entry.2 := by
  induction names generalizing children with
  | nil =>
    obtain rfl := Except.ok.inj h
    exact ⟨.refl _, fun entry hm => .inl hm⟩
  | cons name rest ih =>
    obtain ⟨_, hnew, child, hchild, h⟩ := addChildren_cons_eq_ok_iff.mp h
    obtain ⟨hperm, hbuilt⟩ := ih h
    have hinsert : (Table.insert name child children).Perm ((name, child) :: children) :=
      Table.perm_insert hnew
    refine ⟨?_, fun entry hm => ?_⟩
    · refine hperm.trans (((hinsert.map Prod.fst).append_left rest).trans ?_)
      exact List.perm_middle
    · refine (hbuilt entry hm).elim (fun hm => ?_) .inr
      rcases Table.mem_insert hm with rfl | hm
      · exact .inr hchild
      · exact .inl hm

/-- Children are added when each is named once and can be built. -/
theorem exists_addChildren {names : List String} {children : List (String × Node)}
    (hn : ∀ name ∈ names, Path.IsName name) (hd : (names ++ children.map Prod.fst).Nodup)
    (hb : ∀ name ∈ names, ∃ child, build (path.child name) = .ok child) :
    ∃ out, addChildren build path children names = .ok out := by
  induction names generalizing children with
  | nil => exact ⟨children, rfl⟩
  | cons name rest ih =>
    obtain ⟨hname, hnames⟩ := List.forall_mem_cons.mp hn
    obtain ⟨⟨child, hchild⟩, hbuilt⟩ := List.forall_mem_cons.mp hb
    have hnew : name ∉ children.map Prod.fst := fun hm =>
      (List.nodup_cons.mp hd).1 (List.mem_append_right rest hm)
    have hkeys : ((Table.insert name child children).map Prod.fst).Perm
        (name :: children.map Prod.fst) := (Table.perm_insert hnew).map Prod.fst
    have hnodup : (rest ++ (Table.insert name child children).map Prod.fst).Nodup := by
      refine ((hkeys.append_left rest).nodup_iff).mpr ?_
      exact (List.perm_middle.nodup_iff).mpr hd
    obtain ⟨out, hout⟩ := ih hnames hnodup hbuilt
    exact ⟨out, addChildren_cons_eq_ok_iff.mpr ⟨hname, hnew, child, hchild, hout⟩⟩

/-- Only what is built under names matters. -/
theorem addChildren_congr {build' : Path → Except SnapshotError Node}
    (h : ∀ name, Path.IsName name → build (path.child name) = build' (path.child name))
    (names : List String) (children : List (String × Node)) :
    addChildren build path children names = addChildren build' path children names := by
  induction names generalizing children with
  | nil => rfl
  | cons name rest ih =>
    rw [addChildren, addChildren]
    by_cases hname : Path.IsName name
    · simp only [h name hname, ih]
    · rw [if_pos hname, if_pos hname]

/-! ### Depth -/

/-- A depth that exceeds what is left of the longest key is as good as any greater one. -/
theorem node_eq_of_le {snapshot : Snapshot} {depth depth' : Nat} {path : Path}
    (h : snapshot.depthLimit ≤ path.text.length + depth)
    (h' : snapshot.depthLimit ≤ path.text.length + depth') :
    node snapshot.entries depth path = node snapshot.entries depth' path := by
  have hmissing : ∀ path : Path, snapshot.depthLimit ≤ path.text.length →
      Table.get? path.text snapshot.entries = none := by
    intro path hle
    cases hg : Table.get? path.text snapshot.entries with
    | none => rfl
    | some entry =>
      have hlt := length_lt_depthLimit (Table.mem_of_get?_eq_some hg)
      exact absurd hlt (Nat.not_lt.mpr hle)
  induction depth generalizing depth' path with
  | zero =>
    cases depth' with
    | zero => rfl
    | succ depth' => rw [node, node, hmissing path h]
  | succ depth ih =>
    cases depth' with
    | zero => rw [node, node, hmissing path h']
    | succ depth' =>
      have hchildren : ∀ names, addChildren (node snapshot.entries depth) path [] names =
          addChildren (node snapshot.entries depth') path [] names := by
        refine fun names => addChildren_congr (fun name hname => ?_) names []
        have hlt := path.length_text_lt_child hname
        exact ih (by omega) (by omega)
      rw [node, node]
      simp only [hchildren]

/-! ### What is read -/

/-- The store has a node for each entry, and each of its nodes has an entry that describes it. -/
structure Lists (snapshot : Snapshot) (store : Store) : Prop where
  wellFormed : store.WellFormed
  exists_entry : ∀ found ∈ store.root.nodes, ∃ entry,
    (found.path.text, entry) ∈ snapshot.entries ∧ entry.Describes found
  exists_node : ∀ entry ∈ snapshot.entries, ∃ found ∈ store.root.nodes,
    found.path.text = entry.1 ∧ entry.2.Describes found

theorem exists_describes_of_node {entries : List (String × SnapshotEntry)} {depth : Nat}
    {path : Path}
    {out : Node} (h : node entries depth path = .ok out) :
    ∀ found ∈ out.nodes, ∃ entry,
      Table.get? found.path.text entries = some entry ∧ entry.Describes found := by
  induction depth generalizing path out with
  | zero => cases h
  | succ depth ih =>
    rcases node_succ_eq_ok_iff.mp h with ⟨content, hg, rfl⟩ | ⟨names, children, hg, hc, rfl⟩
    · intro found hm
      obtain rfl := List.mem_singleton.mp hm
      exact ⟨_, hg, .file⟩
    · obtain ⟨hperm, hbuilt⟩ := addChildren_spec hc
      intro found hm
      rcases List.mem_cons.mp hm with rfl | hm
      · exact ⟨_, hg, .directory (by simpa using hperm.symm)⟩
      · obtain ⟨entry, hentry, hfound⟩ := Node.exists_of_mem_childNodes hm
        exact ih ((hbuilt entry hentry).resolve_left List.not_mem_nil) found hfound

variable {snapshot : Snapshot} {store : Store}

theorem lists_of_toStore (hs : Table.Sorted snapshot.entries) (h : snapshot.toStore = .ok store) :
    snapshot.Lists store := by
  obtain ⟨hroot, _, _, hall⟩ := toStore_eq_ok_iff.mp h
  have hdescribes := exists_describes_of_node hroot
  refine ⟨wellFormed_of_toStore h, fun found hm => ?_, fun entry hm => ?_⟩
  · obtain ⟨entry, hg, hd⟩ := hdescribes found hm
    exact ⟨entry, (Table.get?_eq_some_iff hs).mp hg, hd⟩
  · obtain ⟨found, hf, hp⟩ := hall entry hm
    obtain ⟨other, hg, hd⟩ := hdescribes found hf
    rw [hp, (Table.get?_eq_some_iff hs).mpr hm] at hg
    exact ⟨found, hf, hp, Option.some.inj hg ▸ hd⟩

end Snapshot

namespace SnapshotEntry.Describes

variable {entry : SnapshotEntry} {node : Node}

theorem isShaped (h : entry.Describes node) : entry.IsShaped := by
  cases h <;> simp [IsShaped]

theorem of_directory {path : Path} {children : List (String × Node)}
    (h : entry.Describes (.directory path children)) :
    entry.kind = .directory ∧ entry.names.Perm (children.map Prod.fst) := by
  cases h with
  | directory h => exact ⟨rfl, h⟩

/-- What an entry lists stands below the node. -/
theorem exists_child (h : entry.Describes node) {name : String} (hn : name ∈ entry.names) :
    ∃ path children child, node = .directory path children ∧ (name, child) ∈ children := by
  cases h with
  | file => cases hn
  | @directory path names children h =>
    obtain ⟨⟨_, child⟩, hc, rfl⟩ := List.mem_map.mp (h.mem_iff.mp hn)
    exact ⟨path, children, child, rfl, hc⟩

theorem nodup_names {path : Path} (h : entry.Describes node) (hw : node.WellFormed path) :
    entry.names.Nodup := by
  cases h with
  | file => exact .nil
  | directory h =>
    refine h.nodup_iff.mpr (List.pairwise_map.mpr (hw.sorted.imp fun hlt he => ?_))
    exact Std.lt_irrefl (he ▸ hlt)

/-- With its children in order the entry is that of the node. -/
theorem sortChildren_eq {path : Path} (h : entry.Describes node) (hw : node.WellFormed path) :
    entry.sortChildren = .ofNode node := by
  cases h with
  | file => rfl
  | @directory _ names children h =>
    have hsorted : (children.map Prod.fst).Pairwise (· ≤ ·) :=
      List.pairwise_map.mpr (hw.sorted.imp fun hlt => Std.le_of_lt hlt)
    have hnames : names.insertionSort (· ≤ ·) = children.map Prod.fst :=
      ((List.perm_insertionSort _ names).trans h).eq_of_pairwise'
        (List.pairwise_insertionSort _ names) hsorted
    rw [sortChildren, ofNode]
    exact congrArg (fun names => SnapshotEntry.mk _ _ (some names)) hnames

end SnapshotEntry.Describes

namespace Snapshot

variable {snapshot : Snapshot} {store : Store}

/-- The entries of a tree are valid. -/
theorem Lists.valid (h : snapshot.Lists store) : snapshot.Valid where
  root := by
    obtain ⟨entry, hm, hd⟩ := h.exists_entry _ store.root.mem_nodes_self
    have hdirectory := h.wellFormed.isDirectory
    have htext : store.root.path.text = "/" := by rw [h.wellFormed.root.path_eq, Path.text_root]
    refine ⟨_, hm, htext, ?_⟩
    cases hroot : store.root with
    | file path content => rw [hroot] at hdirectory; cases hdirectory
    | directory path children => exact (hroot ▸ hd).of_directory.1
  shaped entry hm := by
    obtain ⟨found, _, _, hd⟩ := h.exists_node entry hm
    exact hd.isShaped
  names entry hm := by
    obtain ⟨found, hf, hp, hd⟩ := h.exists_node entry hm
    refine ⟨hd.nodup_names (h.wellFormed.root.of_mem_nodes hf).2, fun name hn => ?_⟩
    obtain ⟨path, children, child, rfl, hc⟩ := hd.exists_child hn
    obtain ⟨hname, htext⟩ := h.wellFormed.root.text_child hf hc
    obtain ⟨other, hother, _⟩ := h.exists_entry child (h.wellFormed.root.mem_nodes_child hf hc)
    refine ⟨hname, ?_⟩
    rw [← hp]
    exact htext ▸ List.mem_map_of_mem (f := Prod.fst) hother
  listed entry hm hne := by
    obtain ⟨found, hf, hp, _⟩ := h.exists_node entry hm
    obtain ⟨names, hget, _⟩ := h.wellFormed.root.get?_of_mem_nodes hf
    rcases Node.exists_parent_of_get? hget with rfl | ⟨path, children, hd, name, hc⟩
    · rw [h.wellFormed.root.path_eq, Path.text_root] at hp
      exact absurd hp.symm hne
    · obtain ⟨parent, hparent, hdescribes⟩ := h.exists_entry _ hd
      obtain ⟨hkind, hnames⟩ := hdescribes.of_directory
      refine ⟨_, hparent, hkind, name, hnames.mem_iff.mpr (List.mem_map_of_mem hc), ?_⟩
      exact (h.wellFormed.root.text_child hd hc).2.symm.trans hp

/-- What was read is written with the same entries, each with its children in order. -/
theorem Lists.snapshot_eq (h : snapshot.Lists store) (hs : Table.Sorted snapshot.entries) :
    store.snapshot = snapshot.sortChildren := by
  have hsort : Table.Sorted snapshot.sortChildren.entries :=
    Table.sorted_map (fun _ (entry : SnapshotEntry) => entry.sortChildren) hs
  have hentries : store.snapshot.entries = snapshot.sortChildren.entries := by
    refine Table.eq_of_mem_iff (Table.sorted_ofList _) hsort fun entry => ?_
    rw [sortChildren, List.mem_map]
    constructor
    · intro hm
      obtain ⟨found, hf, rfl⟩ := Store.exists_of_mem_snapshot hm
      obtain ⟨other, hother, hd⟩ := h.exists_entry found hf
      exact ⟨_, hother, by rw [hd.sortChildren_eq (h.wellFormed.root.of_mem_nodes hf).2]⟩
    · rintro ⟨other, hother, rfl⟩
      obtain ⟨found, hf, hp, hd⟩ := h.exists_node other hother
      rw [← hp, hd.sortChildren_eq (h.wellFormed.root.of_mem_nodes hf).2]
      exact Table.mem_of_get?_eq_some (h.wellFormed.get?_snapshot hf)
  exact congrArg Snapshot.mk hentries

/-! ### Valid snapshots are read -/

theorem length_lt_childKey (key : String) {name : String} (hn : Path.IsName name) :
    key.length < (childKey key name).length := by
  have hname : name.length ≠ 0 := by
    rw [ne_eq, String.length_eq_zero_iff]
    exact hn.ne_empty
  rw [childKey]
  split
  · rename_i hroot
    rw [hroot, String.length_append]
    omega
  · rw [String.length_append, String.length_append]
    omega

theorem Valid.exists_node (hv : snapshot.Valid) (hs : Table.Sorted snapshot.entries) {depth : Nat}
    {path : Path} (hc : path.Canonical) (hk : path.text ∈ snapshot.keys)
    (hd : snapshot.depthLimit ≤ path.text.length + depth) :
    ∃ out, node snapshot.entries depth path = .ok out := by
  induction depth generalizing path with
  | zero =>
    obtain ⟨entry, hm, he⟩ := List.mem_map.mp hk
    have hlt := length_lt_depthLimit hm
    rw [he] at hlt
    omega
  | succ depth ih =>
    obtain ⟨⟨key, entry⟩, hm, rfl⟩ := List.mem_map.mp hk
    have hshape := hv.shaped _ hm
    obtain ⟨hnodup, hnames⟩ := hv.names _ hm
    have hget := (Table.get?_eq_some_iff hs).mpr hm
    obtain ⟨kind, content, children⟩ := entry
    cases kind with
    | file =>
      obtain ⟨content, rfl⟩ := Option.isSome_iff_exists.mp hshape.1
      obtain rfl : children = none := hshape.2
      exact ⟨_, node_succ_eq_ok_iff.mpr (.inl ⟨content, hget, rfl⟩)⟩
    | directory =>
      obtain rfl : content = none := hshape.1
      obtain ⟨names, rfl⟩ := Option.isSome_iff_exists.mp hshape.2
      have hbuild : ∀ name ∈ names, ∃ child,
          node snapshot.entries depth (path.child name) = .ok child := by
        intro name hn
        obtain ⟨hname, hkey⟩ := hnames name hn
        have hlt := path.length_text_lt_child hname
        exact ih (hc.child hname) ((hc.text_child hname).symm ▸ hkey) (by omega)
      have hlisted : (names ++ ([] : List (String × Node)).map Prod.fst).Nodup := by
        rw [List.map_nil, List.append_nil]
        exact hnodup
      obtain ⟨out, hout⟩ := exists_addChildren (fun name hn => (hnames name hn).1) hlisted hbuild
      exact ⟨_, node_succ_eq_ok_iff.mpr (.inr ⟨names, out, hget, hout, rfl⟩)⟩

/-- From the root every entry is reached, the shorter keys first. -/
theorem Valid.exists_node_of_mem (hv : snapshot.Valid) (hs : Table.Sorted snapshot.entries)
    {depth : Nat} {root : Node} (hroot : node snapshot.entries depth .root = .ok root)
    {entry : String × SnapshotEntry} (hm : entry ∈ snapshot.entries) :
    ∃ found ∈ root.nodes, found.path.text = entry.1 := by
  have hdescribes := exists_describes_of_node hroot
  have hw := wellFormed_of_node hroot
  induction hn : entry.1.length using Nat.strong_induction_on generalizing entry with
  | _ n ih =>
    by_cases he : entry.1 = "/"
    · exact ⟨root, root.mem_nodes_self, by rw [hw.path_eq, Path.text_root, he]⟩
    · obtain ⟨parent, hparent, hkind, name, hname, hkey⟩ := hv.listed entry hm he
      have hisName := ((hv.names parent hparent).2 name hname).1
      have hlt : parent.1.length < n := by
        rw [← hn, ← hkey]
        exact length_lt_childKey parent.1 hisName
      obtain ⟨found, hf, hp⟩ := ih _ hlt hparent rfl
      obtain ⟨other, hg, hd⟩ := hdescribes found hf
      rw [hp, (Table.get?_eq_some_iff hs).mpr hparent] at hg
      obtain rfl := Option.some.inj hg
      obtain ⟨path, children, child, rfl, hc⟩ := hd.exists_child hname
      refine ⟨child, hw.mem_nodes_child hf hc, ?_⟩
      rw [← hkey, ← hp]
      exact (hw.text_child hf hc).2

theorem Valid.exists_toStore (hv : snapshot.Valid) (hs : Table.Sorted snapshot.entries) :
    ∃ store, snapshot.toStore = .ok store := by
  obtain ⟨⟨key, entry⟩, hm, rfl, hkind⟩ := hv.root
  have hk : Path.root.text ∈ snapshot.keys := Path.text_root ▸ List.mem_map_of_mem hm
  obtain ⟨root, hroot⟩ := hv.exists_node hs Path.canonical_root hk (Nat.le_add_left _ _)
  have hdirectory : root.isFile = false := by
    obtain ⟨other, hg, hd⟩ := exists_describes_of_node hroot root root.mem_nodes_self
    rw [(wellFormed_of_node hroot).path_eq, Path.text_root,
      (Table.get?_eq_some_iff hs).mpr hm] at hg
    obtain rfl := Option.some.inj hg
    cases hd with
    | file => cases hkind
    | directory h => rfl
  exact ⟨{ root }, toStore_eq_ok_iff.mpr
    ⟨hroot, hdirectory, rfl, fun _ hm => hv.exists_node_of_mem hs hroot hm⟩⟩

/-- Exactly the valid snapshots are read, whatever their keys are, and what is read is written with
the same entries, each with its children in order. To read deeper than the longest key changes
nothing, so the reading ends for want of entries alone. -/
theorem exists_toStore_iff_valid (hs : Table.Sorted snapshot.entries) :
    (∀ depth, snapshot.depthLimit ≤ depth →
        node snapshot.entries depth .root = node snapshot.entries snapshot.depthLimit .root) ∧
      ((∃ store, snapshot.toStore = .ok store) ↔ snapshot.Valid) ∧
      ∀ store, snapshot.toStore = .ok store → store.snapshot = snapshot.sortChildren := by
  refine ⟨fun depth hd => node_eq_of_le (by omega) (by omega), ⟨?_, fun hv => hv.exists_toStore hs⟩,
    fun store h => (lists_of_toStore hs h).snapshot_eq hs⟩
  rintro ⟨store, h⟩
  exact (lists_of_toStore hs h).valid

/-- The children of two directories are listed out of order. -/
theorem exists_toStore_of_unordered :
    let snapshot : Snapshot := ⟨[("/", ⟨.directory, none, some ["b", "a"]⟩),
      ("/a", ⟨.directory, none, some ["é", "c"]⟩), ("/a/c", ⟨.file, some "", none⟩),
      ("/a/é", ⟨.directory, none, some []⟩), ("/b", ⟨.file, some "x", none⟩)]⟩
    Table.Sorted snapshot.entries ∧ ∃ store, snapshot.toStore = .ok store ∧
      store.snapshot.entries.map (·.2.children) =
        [some ["a", "b"], some ["c", "é"], none, some [], none] := by
  intro snapshot
  have hs : Table.Sorted snapshot.entries := by unfold Table.Sorted; decide +kernel
  obtain ⟨_, hvalid, hback⟩ := exists_toStore_iff_valid hs
  obtain ⟨store, hstore⟩ := hvalid.mpr (by decide +kernel)
  refine ⟨hs, store, hstore, ?_⟩
  rw [hback store hstore]
  decide +kernel

/-- A name that is listed without an entry, and one with a separator in it. -/
example : ¬ Valid ⟨[("/", ⟨.directory, none, some ["a"]⟩)]⟩ ∧
    ¬ Valid ⟨[("/", ⟨.directory, none, some ["a/b"]⟩), ("/a/b", ⟨.file, some "", none⟩)]⟩ := by
  decide +kernel

end Snapshot

end LivePreview
