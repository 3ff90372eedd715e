import LivePreview.Proofs.Path.Canonical
import LivePreview.Proofs.Store.Lookup

/-!
# Well-formed trees

A node is well-formed at a path when it stores that path, its children stand under names in
increasing order, and every child is well-formed at the path extended with its name. Every operation
on the tree keeps that, so it holds of every store that commands or a snapshot can lead to.
-/
namespace LivePreview

inductive Node.WellFormed : Path → Node → Prop
  | file {path : Path} {content : String} : WellFormed path (.file path content)
  | directory {path : Path} {children : List (String × Node)} (hs : Table.Sorted children)
      (hn : ∀ entry ∈ children, Path.IsName entry.1)
      (hc : ∀ entry ∈ children, WellFormed (path.child entry.1) entry.2) :
      WellFormed path (.directory path children)

namespace Node.WellFormed

theorem path_eq {path : Path} {node : Node} (h : WellFormed path node) : node.path = path := by
  cases h <;> rfl

theorem sorted {path stored : Path} {children : List (String × Node)}
    (h : WellFormed path (.directory stored children)) : Table.Sorted children := by
  cases h with
  | directory hs hn hc => exact hs

theorem isName {path stored : Path} {children : List (String × Node)}
    (h : WellFormed path (.directory stored children)) {name : String} {child : Node}
    (hm : (name, child) ∈ children) : Path.IsName name := by
  cases h with
  | directory hs hn hc => exact hn (name, child) hm

theorem child {path stored : Path} {children : List (String × Node)}
    (h : WellFormed path (.directory stored children)) {name : String} {child : Node}
    (hm : (name, child) ∈ children) : WellFormed (path.child name) child := by
  cases h with
  | directory hs hn hc => exact hc (name, child) hm

theorem empty (path : Path) : WellFormed path (.empty path) :=
  .directory .nil (fun _ hm => nomatch hm) (fun _ hm => nomatch hm)

/-- What stands at the end of the names is well-formed at the path that they lead to. -/
theorem get? {path : Path} {node found : Node} {names : List String} (h : WellFormed path node)
    (hf : node.get? names = some found) :
    (∀ name ∈ names, Path.IsName name) ∧ WellFormed ⟨path.names ++ names⟩ found := by
  induction names generalizing path node with
  | nil =>
    obtain rfl := Option.some.inj hf
    rw [List.append_nil]
    exact ⟨fun _ hm => absurd hm List.not_mem_nil, h⟩
  | cons name rest ih =>
    cases node with
    | file stored content => cases hf
    | directory stored children =>
      obtain ⟨child, hc, hf⟩ := Option.bind_eq_some_iff.mp hf
      have hm : (name, child) ∈ children := Table.mem_of_get?_eq_some hc
      obtain ⟨hrest, hfound⟩ := ih (h.child hm) hf
      rw [Path.child_of_isName path (h.isName hm), List.append_assoc] at hfound
      exact ⟨List.forall_mem_cons.mpr ⟨h.isName hm, hrest⟩, hfound⟩

/-! ### Operations on the tree -/

/-- A directory stays well-formed when a well-formed child is put among the others. -/
theorem insert {path stored : Path} {children : List (String × Node)} {name : String} {new : Node}
    (h : WellFormed path (.directory stored children)) (hn : Path.IsName name)
    (hnew : WellFormed (path.child name) new) :
    WellFormed path (.directory stored (Table.insert name new children)) := by
  cases h with
  | directory hs hns hc =>
    refine .directory (Table.sorted_insert name new hs) (fun entry hm => ?_) (fun entry hm => ?_)
    · rcases Table.mem_insert hm with rfl | hm
      · exact hn
      · exact hns entry hm
    · rcases Table.mem_insert hm with rfl | hm
      · exact hnew
      · exact hc entry hm

theorem setContent {path : Path} {node : Node} (content : String) (h : WellFormed path node) :
    WellFormed path (node.setContent content) := by
  cases h with
  | file => exact .file
  | directory hs hn hc => exact .directory hs hn hc

theorem eraseChild {path : Path} {node : Node} (name : String) (h : WellFormed path node) :
    WellFormed path (node.eraseChild name) := by
  cases h with
  | file => exact .file
  | directory hs hn hc =>
    exact .directory (Table.sorted_erase name hs) (fun _ hm => hn _ (Table.mem_of_mem_erase hm))
      (fun _ hm => hc _ (Table.mem_of_mem_erase hm))

/-- A node that moves is well-formed where it arrives. -/
theorem relocate {path : Path} {node : Node} (target : Path) (h : WellFormed path node) :
    WellFormed target (node.relocate target) := by
  induction h generalizing target with
  | file => exact .file
  | @directory path children hs hn _ ih =>
    rw [Node.relocate, relocateChildren_eq_map]
    have hsorted := Table.sorted_map (fun name (child : Node) => child.relocate (target.child name))
      hs
    refine .directory hsorted (fun entry hm => ?_) (fun entry hm => ?_)
    · obtain ⟨old, hold, rfl⟩ := List.mem_map.mp hm
      exact hn old hold
    · obtain ⟨old, hold, rfl⟩ := List.mem_map.mp hm
      exact ih old hold (target.child old.1)

theorem modify {change : Node → Node}
    (hchange : ∀ {path node}, WellFormed path node → WellFormed path (change node))
    {path : Path} {node : Node} (names : List String) (h : WellFormed path node) :
    WellFormed path (node.modify change names) := by
  induction names generalizing path node with
  | nil => cases node <;> exact hchange h
  | cons name rest ih =>
    cases node with
    | file stored content => exact h
    | directory stored children =>
      rw [Node.modify]
      cases hc : Table.get? name children with
      | none => exact h
      | some child =>
        have hm : (name, child) ∈ children := Table.mem_of_get?_eq_some hc
        exact h.insert (h.isName hm) (ih (h.child hm))

theorem remove {path : Path} {node : Node} (names : List String) (h : WellFormed path node) :
    WellFormed path (node.remove names) := by
  rw [Node.remove]
  cases names.getLast? with
  | none => exact h
  | some name => exact h.modify (fun h => h.eraseChild name) _

/-- The directories made on the way store the paths at which they are made. -/
theorem put {walked : Path} {node new : Node} {names : List String} (h : WellFormed walked node)
    (hnames : ∀ name ∈ names, Path.IsName name) (hnew : WellFormed ⟨walked.names ++ names⟩ new) :
    WellFormed walked (node.put walked names new) := by
  induction names generalizing walked node with
  | nil => cases node <;> simpa [Node.put] using hnew
  | cons name rest ih =>
    cases node with
    | file stored content => exact h
    | directory stored children =>
      obtain ⟨hname, hrest⟩ := List.forall_mem_cons.mp hnames
      have hchild : WellFormed (walked.child name)
          ((Table.get? name children).getD (.empty (walked.child name))) := by
        cases hc : Table.get? name children with
        | none => exact empty _
        | some child => exact h.child (Table.mem_of_get?_eq_some hc)
      refine h.insert hname (ih hchild hrest ?_)
      rw [Path.child_of_isName walked hname, List.append_assoc]
      exact hnew

/-! ### What a well-formed tree says of its nodes -/

mutual

/-- Every node of the tree is found by the path that it stores. -/
theorem get?_of_mem_nodes {path : Path} {node found : Node} (h : WellFormed path node)
    (hm : found ∈ node.nodes) :
    ∃ names, node.get? names = some found ∧ found.path = ⟨path.names ++ names⟩ := by
  cases node with
  | file stored content =>
    obtain rfl := List.mem_singleton.mp hm
    exact ⟨[], rfl, by rw [h.path_eq, List.append_nil]⟩
  | directory stored children =>
    rcases List.mem_cons.mp hm with rfl | hm
    · exact ⟨[], rfl, by rw [h.path_eq, List.append_nil]⟩
    · obtain ⟨name, child, names, hc, hf, hp⟩ := get?_of_mem_childNodes
        (fun entry hm => h.isName hm) (fun entry hm => h.child hm) hm
      refine ⟨name :: names, ?_, hp⟩
      rw [get?_directory_cons, (Table.get?_eq_some_iff h.sorted).mpr hc]
      exact hf

theorem get?_of_mem_childNodes {path : Path} {children : List (String × Node)} {found : Node}
    (hn : ∀ entry ∈ children, Path.IsName entry.1)
    (hc : ∀ entry ∈ children, WellFormed (path.child entry.1) entry.2)
    (hm : found ∈ childNodes children) :
    ∃ name child names, (name, child) ∈ children ∧ child.get? names = some found ∧
      found.path = ⟨path.names ++ name :: names⟩ := by
  cases children with
  | nil => cases hm
  | cons entry rest =>
    obtain ⟨name, child⟩ := entry
    obtain ⟨hname, hnrest⟩ := List.forall_mem_cons.mp hn
    obtain ⟨hchild, hcrest⟩ := List.forall_mem_cons.mp hc
    rcases List.mem_append.mp hm with hm | hm
    · obtain ⟨names, hf, hp⟩ := get?_of_mem_nodes hchild hm
      refine ⟨name, child, names, List.mem_cons_self, hf, ?_⟩
      rw [hp, Path.child_of_isName path hname, List.append_assoc]
      rfl
    · obtain ⟨name, child, names, hmem, hf, hp⟩ := get?_of_mem_childNodes hnrest hcrest hm
      exact ⟨name, child, names, List.mem_cons_of_mem _ hmem, hf, hp⟩

end

/-- The nodes of the tree below a directory of the tree are nodes of the tree. -/
theorem mem_nodes_child {root path : Path} {node : Node} (h : WellFormed root node)
    {children : List (String × Node)} (hd : .directory path children ∈ node.nodes) {name : String}
    {child : Node} (hc : (name, child) ∈ children) : child ∈ node.nodes := by
  obtain ⟨names, hf, _⟩ := h.get?_of_mem_nodes hd
  have hsorted := (h.get? hf).2.sorted
  have hget : node.get? (names ++ [name]) = some child := by
    rw [Node.get?_append, hf]
    show (Table.get? name children).bind _ = _
    rw [(Table.get?_eq_some_iff hsorted).mpr hc]
    rfl
  exact mem_nodes_of_get? hget

/-- Every node of the tree is well-formed at the path that it stores. -/
theorem of_mem_nodes {node found : Node} (h : WellFormed .root node) (hm : found ∈ node.nodes) :
    found.path.Canonical ∧ WellFormed found.path found := by
  obtain ⟨names, hf, hp⟩ := h.get?_of_mem_nodes hm
  obtain ⟨hnames, hw⟩ := h.get? hf
  rw [hp]
  exact ⟨hnames, hw⟩

end Node.WellFormed

end LivePreview
