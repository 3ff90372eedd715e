import LivePreview.Proofs.Store.Step
import LivePreview.Proofs.Table.Order
import LivePreview.Snapshot

/-!
# What reading a snapshot does

A snapshot is read in three layers: the children of a directory are added one by one, a node is built
from its entry, and the tree that is built has to reach every entry. Each layer succeeds exactly under
the conditions stated here, and with exactly that result.
-/
namespace LivePreview.Snapshot

variable {build : Path → Except SnapshotError Node} {path : Path}

/-- The next child is added under a name that a node can have and that no other child has. -/
theorem addChildren_cons_eq_ok_iff {name : String} {rest : List String}
    {children out : List (String × Node)} :
    addChildren build path children (name :: rest) = .ok out ↔
      Path.IsName name ∧ name ∉ children.map Prod.fst ∧
        ∃ child, build (path.child name) = .ok child ∧
          addChildren build path (Table.insert name child children) rest = .ok out := by
  rw [addChildren]
  by_cases hname : Path.IsName name
  · rw [if_neg (not_not_intro hname)]
    by_cases hnew : name ∈ children.map Prod.fst
    · rw [if_pos (Table.contains_iff.mpr hnew)]
      exact ⟨fun h => (nomatch h), fun ⟨_, h, _⟩ => absurd hnew h⟩
    · rw [if_neg (mt Table.contains_iff.mp hnew), bind_eq_ok]
      exact ⟨fun h => ⟨hname, hnew, h⟩, fun ⟨_, _, h⟩ => h⟩
  · rw [if_pos hname]
    exact ⟨fun h => (nomatch h), fun ⟨h, _⟩ => absurd h hname⟩

/-- A node is a file with the content of its entry, or a directory with the children that its entry
lists, one level less deep. -/
theorem node_succ_eq_ok_iff {entries : List (String × SnapshotEntry)} {depth : Nat} {out : Node} :
    node entries (depth + 1) path = .ok out ↔
      (∃ content, Table.get? path.text entries = some ⟨.file, some content, none⟩ ∧
        out = .file path content) ∨
      ∃ names children, Table.get? path.text entries = some ⟨.directory, none, some names⟩ ∧
        addChildren (node entries depth) path [] names = .ok children ∧
          out = .directory path children := by
  rw [node]
  constructor
  · intro h
    split at h
    · cases h
    · rename_i content hg
      exact .inl ⟨content, hg, (Except.ok.inj h).symm⟩
    · rename_i names hg
      cases hc : addChildren (node entries depth) path [] names with
      | error cause =>
        rw [hc] at h
        cases h
      | ok children =>
        rw [hc] at h
        exact .inr ⟨names, children, hg, hc, (Except.ok.inj h).symm⟩
    · cases h
  · rintro (⟨content, hg, rfl⟩ | ⟨names, children, hg, hc, rfl⟩)
    · rw [hg]
    · rw [hg]
      dsimp only
      rw [hc]
      rfl

/-- A snapshot is read when its root is a directory from which every entry is reached. -/
theorem toStore_eq_ok_iff {snapshot : Snapshot} {store : Store} :
    snapshot.toStore = .ok store ↔
      node snapshot.entries snapshot.depthLimit .root = .ok store.root ∧
        store.root.isFile = false ∧ store = { root := store.root } ∧
          ∀ entry ∈ snapshot.entries, ∃ found ∈ store.root.nodes, found.path.text = entry.1 := by
  have hreached : ∀ root : Node,
      snapshot.entries.find? (fun entry => entry.1 ∉ root.nodes.map (·.path.text)) = none ↔
        ∀ entry ∈ snapshot.entries, ∃ found ∈ root.nodes, found.path.text = entry.1 := by
    intro root
    simp [List.find?_eq_none]
  rw [toStore, bind_eq_ok]
  constructor
  · rintro ⟨root, hroot, h⟩
    split at h
    · cases h
    · rename_i hfile
      dsimp only at h
      split at h
      · cases h
      · rename_i hfind
        obtain rfl := Except.ok.inj h
        exact ⟨hroot, Bool.eq_false_iff.mpr hfile, rfl, (hreached root).mp hfind⟩
  · rintro ⟨hroot, hfile, hstore, hall⟩
    refine ⟨store.root, hroot, ?_⟩
    rw [if_neg (Bool.eq_false_iff.mp hfile)]
    dsimp only
    rw [(hreached store.root).mpr hall]
    exact congrArg Except.ok hstore.symm

end LivePreview.Snapshot
