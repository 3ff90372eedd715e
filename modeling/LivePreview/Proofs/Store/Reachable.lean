import LivePreview.Proofs.Snapshot.Reading
import LivePreview.Proofs.Store.Failure
import LivePreview.Proofs.Store.WellFormed

/-!
# Reachable stores

The stores that an empty one or a snapshot leads to by any sequence of commands, whether they
succeed or fail and whatever the receivers of announcements do meanwhile. The tree of each is
well-formed.
-/
namespace LivePreview

namespace Store

/-- The store that a command leaves, whether it succeeds or fails. -/
def attempt (store : Store) (command : Command) : Store :=
  match command.apply store with
  | .ok _ left => left
  | .error _ left => left

theorem attempt_of_ok {store next : Store} {command : Command}
    (h : command.apply store = .ok () next) : store.attempt command = next := by
  rw [attempt, h]

theorem attempt_of_error {store left : Store} {command : Command} {cause : StoreError}
    (h : command.apply store = .error cause left) : store.attempt command = left := by
  rw [attempt, h]

/-- An attempt makes a step or leaves the store as it was. -/
theorem step_attempt_or_eq (store : Store) (command : Command) :
    store.Step command (store.attempt command) ∨ store.attempt command = store := by
  rcases command.apply_cases store with ⟨next, ha, hs⟩ | ⟨cause, ha⟩
  · rw [attempt_of_ok ha]
    exact .inl hs
  · exact .inr (attempt_of_error ha)

inductive Reachable : Store → Prop
  | empty : Reachable .empty
  | restored {snapshot : Snapshot} {store : Store} (h : snapshot.toStore = .ok store) :
      Reachable store
  | attempted {store : Store} (command : Command) (h : Reachable store) :
      Reachable (store.attempt command)
  | observed {store : Store} (changes : Broadcast Change) (h : Reachable store) :
      Reachable { store with changes }

/-- The root is a directory and well-formed at the root path. -/
structure WellFormed (store : Store) : Prop where
  isDirectory : store.root.isDirectory = true
  root : store.root.WellFormed .root

namespace WellFormed

theorem empty : Store.empty.WellFormed := ⟨rfl, .empty .root⟩

theorem announce {store : Store} (change : Change) (h : store.WellFormed) :
    (store.announce change).WellFormed :=
  ⟨h.isDirectory, h.root⟩

theorem node? {store : Store} {path : Path} {node : Node} (h : store.WellFormed)
    (hp : path.Canonical) (hn : store.node? path = some node) : node.WellFormed path := by
  rw [Store.node?, hp.segments_eq] at hn
  exact (h.root.get? hn).2

theorem overwritten {store : Store} (path : Path) (content : String) (h : store.WellFormed) :
    (store.overwritten path content).WellFormed :=
  ⟨(Node.isDirectory_modify (Node.isDirectory_setContent content) _ _).trans h.isDirectory,
    h.root.modify (fun h => h.setContent content) _⟩

theorem remove {store : Store} (path : Path) (h : store.WellFormed) :
    (store.remove path).WellFormed :=
  ⟨(Node.isDirectory_remove _ _).trans h.isDirectory, h.root.remove _⟩

theorem insert {store : Store} {path : Path} {node : Node} (h : store.WellFormed)
    (hp : path.Canonical) (hne : path.names ≠ []) (hnode : node.WellFormed path) :
    (store.insert node).WellFormed := by
  obtain rfl := hnode.path_eq
  refine ⟨?_, ?_⟩
  · rw [Store.insert, hp.segments_eq, Node.isDirectory_put _ _ hne]
    exact h.isDirectory
  · rw [Store.insert, hp.segments_eq]
    exact h.root.put hp hnode

end WellFormed

/-- Only the root stands at no name, so a path at which nothing stands has names. -/
theorem names_ne_nil_of_node?_eq_none {store : Store} {path : Path} (hp : path.Canonical)
    (hn : store.node? path = none) : path.names ≠ [] := by
  intro he
  rw [node?, hp.segments_eq, he] at hn
  cases hn

/-- No step of a command harms the tree. -/
theorem Step.wellFormed {store store' : Store} {command : Command} (hs : store.Step command store')
    (h : store.WellFormed) : store'.WellFormed := by
  cases hs with
  | createFile hp hn hu =>
    have hc := Path.canonical_of_parse hp
    exact (h.insert hc (names_ne_nil_of_node?_eq_none hc hn) .file).announce _
  | replaceFile hp hf => exact h.overwritten _ _
  | updateFile hp hf => exact h.overwritten _ _
  | createDirectory hp hn hu =>
    have hc := Path.canonical_of_parse hp
    exact (h.insert hc (names_ne_nil_of_node?_eq_none hc hn) (.empty _)).announce _
  | keepDirectory hp hd => exact h
  | replaceInFile hp hf hne ho => exact h.overwritten _ _
  | insertInFile hp hf hl => exact h.overwritten _ _
  | deleteFile hp hf => exact (h.remove _).announce _
  | deleteDirectory hp hr hd => exact (h.remove _).announce _
  | @rename _ _ source target node hps hpt hrs hrt hn hw hf hu =>
    have hs := Path.canonical_of_parse hps
    have ht := Path.canonical_of_parse hpt
    have hnode := (h.node? hs hn).relocate target
    exact ((h.remove source).insert ht (names_ne_nil_of_node?_eq_none ht hf) hnode).announce _
  | keepPlace hps hpt hr hn => exact h

end Store

/-! ### Snapshots -/

namespace Snapshot

/-- Children are added only under names that a node can have. -/
theorem wellFormed_of_addChildren {build : Path → Except SnapshotError Node} {path : Path}
    (hbuild : ∀ path node, build path = .ok node → node.WellFormed path) {names : List String}
    {children out : List (String × Node)} (hc : (Node.directory path children).WellFormed path)
    (h : addChildren build path children names = .ok out) :
    (Node.directory path out).WellFormed path := by
  induction names generalizing children with
  | nil =>
    obtain rfl := Except.ok.inj h
    exact hc
  | cons name rest ih =>
    obtain ⟨hname, _, child, hchild, h⟩ := addChildren_cons_eq_ok_iff.mp h
    exact ih (hc.insert hname (hbuild _ _ hchild)) h

theorem wellFormed_of_node {entries : List (String × SnapshotEntry)} {depth : Nat} {path : Path}
    {out : Node} (h : node entries depth path = .ok out) : out.WellFormed path := by
  induction depth generalizing path out with
  | zero => cases h
  | succ depth ih =>
    rcases node_succ_eq_ok_iff.mp h with ⟨content, _, rfl⟩ | ⟨names, children, _, hc, rfl⟩
    · exact .file
    · exact wellFormed_of_addChildren (fun _ _ => ih) (.empty path) hc

/-- A snapshot is read only into a well-formed tree, whatever its entries are. -/
theorem wellFormed_of_toStore {snapshot : Snapshot} {store : Store}
    (h : snapshot.toStore = .ok store) : store.WellFormed := by
  obtain ⟨hroot, hfile, _, _⟩ := toStore_eq_ok_iff.mp h
  exact ⟨Node.isFile_eq_false_iff.mp hfile, wellFormed_of_node hroot⟩

end Snapshot

namespace Store

theorem WellFormed.attempt {store : Store} (command : Command) (h : store.WellFormed) :
    (store.attempt command).WellFormed := by
  rcases store.step_attempt_or_eq command with hs | he
  · exact hs.wellFormed h
  · rw [he]
    exact h

theorem Reachable.wellFormed {store : Store} (h : store.Reachable) : store.WellFormed := by
  induction h with
  | empty => exact .empty
  | restored h => exact Snapshot.wellFormed_of_toStore h
  | attempted command _ ih => exact ih.attempt command
  | observed changes _ ih => exact ⟨ih.isDirectory, ih.root⟩

/-- In every reachable store the root is a directory at the root path, every node is found by the
path that it stores, and every child stores the path of its directory extended with its name. -/
theorem Reachable.paths_agree {store : Store} (h : store.Reachable) :
    store.root.isDirectory = true ∧ store.root.path = .root ∧
      ∀ node ∈ store.root.nodes,
        node.path.Canonical ∧ store.node? node.path = some node ∧
          ∀ children, node.children? = some children → ∀ entry ∈ children,
            Path.IsName entry.1 ∧ entry.2.path = node.path.child entry.1 := by
  have hw := h.wellFormed
  refine ⟨hw.isDirectory, hw.root.path_eq, fun node hm => ?_⟩
  obtain ⟨names, hf, hp⟩ := hw.root.get?_of_mem_nodes hm
  obtain ⟨hnames, hnode⟩ := hw.root.get? hf
  have hp : node.path = ⟨names⟩ := hp
  have hc : node.path.Canonical := by rw [hp]; exact hnames
  refine ⟨hc, ?_, fun children hchildren entry hentry => ?_⟩
  · rw [node?, hc.segments_eq, hp]
    exact hf
  · cases node with
    | file path content => cases hchildren
    | directory path children =>
      obtain rfl := Option.some.inj hchildren
      have hname := hnode.isName hentry
      exact ⟨hname, (hnode.child hentry).path_eq.trans (by rw [hnode.path_eq])⟩

theorem paths_agree_after_rename :
    let store := (Store.empty.attempt (.createFile "/a/b" "")).attempt (.rename "/a" "/c/d")
    store.root.nodes.map (·.path.text) = ["/", "/c", "/c/d", "/c/d/b"] ∧
      ∀ node ∈ store.root.nodes, store.node? node.path = some node := by
  refine ⟨by decide +kernel, fun node hm => ?_⟩
  exact ((Reachable.paths_agree (.attempted _ (.attempted _ .empty))).2.2 node hm).2.1

end Store

end LivePreview
