import LivePreview.Store.Node
import LivePreview.Proofs.Table.Order

/-!
# Look-up in the file tree

What each operation on the tree does to what is found at the end of a list of names: `entryAt` sees
whether a directory or a file stands there, and which content it has. None of the laws asks for a
well-formed tree.
-/
namespace LivePreview

/-- What a node is to those who see neither its path nor its children. -/
inductive Entry where
  | directory
  | file (content : String)
deriving DecidableEq, Repr

namespace Node

def entry : Node → Entry
  | file _ content => .file content
  | directory _ _ => .directory

/-- What stands at the end of the names. -/
def entryAt (node : Node) (names : List String) : Option Entry := (node.get? names).map entry

@[simp] theorem get?_nil (node : Node) : node.get? [] = some node := rfl

@[simp] theorem get?_file_cons (path : Path) (content name : String) (rest : List String) :
    (file path content).get? (name :: rest) = none := rfl

@[simp] theorem get?_directory_cons (path : Path) (children : List (String × Node)) (name : String)
    (rest : List String) :
    (directory path children).get? (name :: rest) =
      (Table.get? name children).bind (·.get? rest) := rfl

@[simp] theorem entryAt_nil (node : Node) : node.entryAt [] = some node.entry := rfl

@[simp] theorem entryAt_file_cons (path : Path) (content name : String) (rest : List String) :
    (file path content).entryAt (name :: rest) = none := rfl

@[simp] theorem entryAt_directory_cons (path : Path) (children : List (String × Node))
    (name : String) (rest : List String) :
    (directory path children).entryAt (name :: rest) =
      (Table.get? name children).bind (·.entryAt rest) := by
  rw [entryAt, get?_directory_cons]
  cases Table.get? name children <;> rfl

@[simp] theorem entryAt_empty_cons (path : Path) (name : String) (rest : List String) :
    (empty path).entryAt (name :: rest) = none := rfl

theorem get?_append (node : Node) (front back : List String) :
    node.get? (front ++ back) = (node.get? front).bind (·.get? back) := by
  induction front generalizing node with
  | nil => rfl
  | cons name rest ih =>
    cases node with
    | file path content => rfl
    | directory path children =>
      simp only [List.cons_append, get?_directory_cons]
      cases Table.get? name children with
      | none => rfl
      | some child => exact ih child

theorem entryAt_append (node : Node) (front back : List String) :
    node.entryAt (front ++ back) = (node.get? front).bind (·.entryAt back) := by
  rw [entryAt, get?_append]
  cases node.get? front <;> rfl

/-- Below a file there is nothing. -/
theorem entryAt_append_of_file {node : Node} {front back : List String} {content : String}
    (h : node.entryAt front = some (.file content)) (hb : back ≠ []) :
    node.entryAt (front ++ back) = none := by
  obtain ⟨name, rest, rfl⟩ := List.exists_cons_of_ne_nil hb
  rw [entryAt_append]
  obtain ⟨found, hf, he⟩ := Option.map_eq_some_iff.mp h
  rw [hf]
  cases found with
  | file path _ => rfl
  | directory path children => cases he

theorem entryAt_append_of_none {node : Node} {front : List String} (back : List String)
    (h : node.entryAt front = none) : node.entryAt (front ++ back) = none := by
  rw [entryAt_append, Option.map_eq_none_iff.mp h]
  rfl

/-! ### Changing a node in its place -/

theorem entryAt_modify_append (change : Node → Node) (node : Node) (names rest : List String) :
    (node.modify change names).entryAt (names ++ rest) =
      (node.get? names).bind fun found => (change found).entryAt rest := by
  induction names generalizing node with
  | nil => cases node <;> rfl
  | cons name names ih =>
    cases node with
    | file path content => rfl
    | directory path children =>
      cases hc : Table.get? name children with
      | none => simp [modify, hc]
      | some child =>
        simp only [modify, hc, List.cons_append, entryAt_directory_cons, Table.get?_insert_self,
          Option.bind_some, get?_directory_cons]
        exact ih child

/-- A change shows only at the names where it is made and below. -/
theorem entryAt_modify_elsewhere (change : Node → Node) (node : Node)
    {names other : List String} (h : ¬ names <+: other) :
    (node.modify change names).entryAt other = node.entryAt other := by
  induction names generalizing node other with
  | nil => exact absurd List.nil_prefix h
  | cons name names ih =>
    cases node with
    | file path content => rfl
    | directory path children =>
      cases hc : Table.get? name children with
      | none => simp [modify, hc]
      | some child =>
        simp only [modify, hc]
        cases other with
        | nil => rfl
        | cons other rest =>
          simp only [entryAt_directory_cons]
          by_cases hn : other = name
          · subst hn
            rw [Table.get?_insert_self, hc]
            exact ih child fun hp => h (List.cons_prefix_cons.mpr ⟨rfl, hp⟩)
          · rw [Table.get?_insert_of_ne hn]

/-- A new content shows at its file alone. -/
theorem entryAt_setContent {node : Node} {names : List String} {old : String} (content : String)
    (h : node.entryAt names = some (.file old)) (other : List String) :
    (node.modify (setContent content) names).entryAt other =
      if other = names then some (.file content) else node.entryAt other := by
  obtain ⟨found, hf, he⟩ := Option.map_eq_some_iff.mp h
  cases found with
  | directory path children => cases he
  | file path _ =>
    by_cases hp : names <+: other
    · obtain ⟨rest, rfl⟩ := hp
      rw [entryAt_modify_append, hf]
      cases rest with
      | nil => simp [setContent, entry]
      | cons name rest =>
        rw [if_neg (by simp), entryAt_append_of_file h (List.cons_ne_nil _ _)]
        rfl
    · have hne : other ≠ names := fun he => hp (he ▸ List.prefix_rfl)
      rw [entryAt_modify_elsewhere _ _ hp, if_neg hne]

theorem entryAt_eraseChild (name : String) (node : Node) (other : List String) :
    (node.eraseChild name).entryAt other =
      if [name] <+: other then none else node.entryAt other := by
  cases node with
  | file path content =>
    cases other with
    | nil => simp [eraseChild]
    | cons first rest => simp [eraseChild]
  | directory path children =>
    cases other with
    | nil => simp [eraseChild, entry]
    | cons first rest =>
      simp only [eraseChild, entryAt_directory_cons]
      by_cases hn : first = name
      · subst hn
        rw [Table.get?_erase_self, if_pos (by simp)]
        rfl
      · have hp : ¬ [name] <+: first :: rest :=
          fun hp => hn (List.cons_prefix_cons.mp hp).1.symm
        rw [Table.get?_erase_of_ne hn, if_neg hp]

/-- A node that is taken away takes everything below it along, and nothing else. -/
theorem entryAt_remove (node : Node) {names : List String} (h : names ≠ []) (other : List String) :
    (node.remove names).entryAt other =
      if names <+: other then none else node.entryAt other := by
  obtain ⟨front, name, rfl⟩ := List.eq_nil_or_concat names |>.resolve_left h
  rw [List.concat_eq_append, remove, List.getLast?_concat, List.dropLast_concat]
  by_cases hf : front <+: other
  · obtain ⟨rest, rfl⟩ := hf
    rw [entryAt_modify_append, entryAt_append]
    simp only [List.prefix_append_right_inj, entryAt_eraseChild]
    cases node.get? front with
    | none => simp
    | some found => rfl
  · have hp : ¬ front ++ [name] <+: other := fun hp => hf ((List.prefix_append _ _).trans hp)
    rw [if_neg hp]
    exact entryAt_modify_elsewhere _ _ hf

/-! ### Putting a node at its place -/

/-- No file stands where a directory on the way has to be. -/
def Open (node : Node) (names : List String) : Prop :=
  ∀ front, front <+: names → front ≠ names → ∀ content, node.entryAt front ≠ some (.file content)

theorem open_nil (node : Node) : node.Open [] :=
  fun _ hp hne => absurd (List.prefix_nil.mp hp) hne

theorem open_cons_iff (path : Path) (children : List (String × Node)) (name : String)
    (rest : List String) :
    (directory path children).Open (name :: rest) ↔
      ∀ child, Table.get? name children = some child → child.Open rest := by
  constructor
  · intro h child hc front hp hne content he
    refine h (name :: front) (List.cons_prefix_cons.mpr ⟨rfl, hp⟩) (by simpa using hne) content ?_
    rw [entryAt_directory_cons, hc]
    exact he
  · intro h front hp hne content he
    cases front with
    | nil => simp [entry] at he
    | cons first front =>
      obtain ⟨rfl, hfront⟩ := List.cons_prefix_cons.mp hp
      rw [entryAt_directory_cons] at he
      obtain ⟨child, hc, hfile⟩ := Option.bind_eq_some_iff.mp he
      exact h child hc front hfront (by simpa using hne) content hfile

theorem blockedAfter?_eq_none_iff {node : Node} (h : node.isDirectory = true)
    (names : List String) : node.blockedAfter? names = none ↔ node.Open names := by
  induction names generalizing node with
  | nil => simp [blockedAfter?, open_nil]
  | cons name rest ih =>
    cases node with
    | file path content => cases h
    | directory path children =>
      rw [open_cons_iff]
      cases rest with
      | nil => simp [blockedAfter?, open_nil]
      | cons second rest =>
        rw [blockedAfter?]
        rotate_left
        · exact List.cons_ne_nil second rest
        simp only [child?, children?, Option.bind_some]
        cases hc : Table.get? name children with
        | none => simp
        | some child =>
          cases child with
          | directory path' children' =>
            have hd := @ih (directory path' children') rfl
            simpa using hd
          | file path' content =>
            simp only [reduceCtorEq, Option.some.injEq, forall_eq', false_iff]
            intro ho
            exact ho [] List.nil_prefix (by simp) content rfl

/-- What stands after a node was put at its place: below the place what the node brings along, on
the way a directory, and elsewhere what stood there before. -/
theorem entryAt_put (walked : Path) {node : Node} {names : List String} (new : Node)
    (h : node.Open names) (other : List String) :
    (node.put walked names new).entryAt other =
      if names <+: other then new.entryAt (other.drop names.length)
      else if other <+: names then some .directory
      else node.entryAt other := by
  induction names generalizing walked node other with
  | nil => simp [put]
  | cons name names ih =>
    cases node with
    | file path content => exact absurd rfl (h [] List.nil_prefix (by simp) content)
    | directory path children =>
      have hopen : ((Table.get? name children).getD (empty (walked.child name))).Open names := by
        cases hc : Table.get? name children with
        | some child => exact (open_cons_iff path children name names).mp h child hc
        | none =>
          intro front _ _ content
          cases front with
          | nil => simp [entry, empty]
          | cons => simp
      cases other with
      | nil => simp [put, entry]
      | cons first rest =>
        simp only [put, entryAt_directory_cons, List.cons_prefix_cons]
        by_cases hn : first = name
        · subst hn
          rw [Table.get?_insert_self, Option.bind_some, ih (walked.child first) hopen rest]
          simp only [true_and, List.length_cons, List.drop_succ_cons]
          split
          · rfl
          · split
            · rfl
            · rename_i hback
              cases Table.get? first children with
              | some child => rfl
              | none =>
                cases rest with
                | nil => exact absurd List.nil_prefix hback
                | cons => rfl
        · have hn' : ¬ name = first := fun he => hn he.symm
          simp [Table.get?_insert_of_ne hn, hn, hn']

/-! ### Moving -/

theorem relocateChildren_eq_map (path : Path) (children : List (String × Node)) :
    relocateChildren path children =
      children.map fun entry => (entry.1, entry.2.relocate (path.child entry.1)) := by
  induction children with
  | nil => rfl
  | cons entry rest ih => rw [relocateChildren, List.map_cons, ih]

/-- A node that moves brings along everything below it. -/
theorem entryAt_relocate (path : Path) (node : Node) (names : List String) :
    (node.relocate path).entryAt names = node.entryAt names := by
  induction names generalizing path node with
  | nil => cases node <;> rfl
  | cons name rest ih =>
    cases node with
    | file _ content => rfl
    | directory _ children =>
      rw [relocate, relocateChildren_eq_map, entryAt_directory_cons, entryAt_directory_cons,
        Table.get?_map (fun name (child : Node) => child.relocate (path.child name)) name children]
      cases Table.get? name children with
      | none => rfl
      | some child => exact ih _ child

theorem path_relocate (path : Path) (node : Node) : (node.relocate path).path = path := by
  cases node <;> rfl

/-! ### The kind of the node itself -/

theorem isFile_eq_false_iff {node : Node} : node.isFile = false ↔ node.isDirectory = true := by
  cases node <;> simp [isFile, isDirectory, kind]

theorem isDirectory_modify {change : Node → Node}
    (hchange : ∀ node, (change node).isDirectory = node.isDirectory) (node : Node)
    (names : List String) : (node.modify change names).isDirectory = node.isDirectory := by
  cases names with
  | nil => cases node <;> exact hchange _
  | cons name rest =>
    cases node with
    | file path content => rfl
    | directory path children =>
      rw [modify]
      cases Table.get? name children <;> rfl

theorem isDirectory_setContent (content : String) (node : Node) :
    (node.setContent content).isDirectory = node.isDirectory := by
  cases node <;> rfl

theorem isDirectory_remove (node : Node) (names : List String) :
    (node.remove names).isDirectory = node.isDirectory := by
  rw [remove]
  cases names.getLast? with
  | none => rfl
  | some name => exact isDirectory_modify (fun node => by cases node <;> rfl) node _

theorem isDirectory_put (walked : Path) (node : Node) {names : List String} (h : names ≠ [])
    (new : Node) : (node.put walked names new).isDirectory = node.isDirectory := by
  obtain ⟨name, rest, rfl⟩ := List.exists_cons_of_ne_nil h
  cases node <;> rfl

theorem entry_eq_directory_iff {node : Node} :
    node.entry = .directory ↔ node.isDirectory = true := by
  cases node <;> simp [entry, isDirectory, kind]

/-! ### All nodes of a tree -/

theorem mem_childNodes {children : List (String × Node)} {name : String} {child found : Node}
    (hc : (name, child) ∈ children) (hf : found ∈ child.nodes) : found ∈ childNodes children := by
  induction children with
  | nil => cases hc
  | cons entry rest ih =>
    obtain ⟨other, node⟩ := entry
    rw [childNodes, List.mem_append]
    rcases List.mem_cons.mp hc with he | hc
    · cases he
      exact Or.inl hf
    · exact Or.inr (ih hc)

theorem mem_nodes_of_get? {node found : Node} {names : List String}
    (h : node.get? names = some found) : found ∈ node.nodes := by
  induction names generalizing node with
  | nil =>
    obtain rfl := Option.some.inj h
    cases node <;> simp [nodes]
  | cons name rest ih =>
    cases node with
    | file path content => cases h
    | directory path children =>
      obtain ⟨child, hc, hf⟩ := Option.bind_eq_some_iff.mp h
      have hm : (name, child) ∈ children := Table.mem_of_get?_eq_some hc
      exact List.mem_cons_of_mem _ (mem_childNodes hm (ih hf))

theorem exists_of_mem_childNodes {children : List (String × Node)} {found : Node}
    (h : found ∈ childNodes children) : ∃ entry ∈ children, found ∈ entry.2.nodes := by
  induction children with
  | nil => cases h
  | cons entry rest ih =>
    rcases List.mem_append.mp h with h | h
    · exact ⟨entry, List.mem_cons_self, h⟩
    · obtain ⟨other, hm, hf⟩ := ih h
      exact ⟨other, List.mem_cons_of_mem _ hm, hf⟩

theorem mem_nodes_self (node : Node) : node ∈ node.nodes := by
  cases node <;> exact List.mem_cons_self

/-- What is found at the end of names stands in a directory, unless there are no names. -/
theorem exists_parent_of_get? {node found : Node} {names : List String}
    (h : node.get? names = some found) :
    found = node ∨ ∃ path children, directory path children ∈ node.nodes ∧
      ∃ name, (name, found) ∈ children := by
  rcases List.eq_nil_or_concat names with rfl | ⟨front, name, rfl⟩
  · exact .inl (Option.some.inj h).symm
  · rw [List.concat_eq_append, get?_append] at h
    obtain ⟨parent, hp, hf⟩ := Option.bind_eq_some_iff.mp h
    cases parent with
    | file path content => cases hf
    | directory path children =>
      obtain ⟨child, hc, hf⟩ := Option.bind_eq_some_iff.mp hf
      obtain rfl := Option.some.inj hf
      exact .inr ⟨path, children, mem_nodes_of_get? hp, name, Table.mem_of_get?_eq_some hc⟩

end Node

end LivePreview
