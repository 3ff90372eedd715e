import LivePreview.Proofs.Store.Reachable
import LivePreview.Proofs.Text.Occurrence
import LivePreview.Proofs.Text.Pieces

/-!
# The store as a flat map

Seen from outside, a store is a map from canonical paths to what stands there. `FlatTree.Step` says
in terms of that map alone when a command is possible and what it changes. The file tree does
exactly that.
-/
namespace LivePreview

structure CanonicalPath where
  path : Path
  canonical : path.Canonical

namespace CanonicalPath

@[ext]
theorem ext_path {p q : CanonicalPath} (h : p.path = q.path) : p = q := by
  cases p; cases q; cases h; rfl

theorem ext_names {p q : CanonicalPath} (h : p.path.names = q.path.names) : p = q :=
  ext_path (Path.ext_names h)

instance : DecidableEq CanonicalPath := fun _ _ =>
  decidable_of_iff _ ⟨ext_path, congrArg CanonicalPath.path⟩

/-- The path is `ancestor` or lies below it. -/
def Below (path ancestor : CanonicalPath) : Prop := path.path.startsWith ancestor.path = true

instance (path ancestor : CanonicalPath) : Decidable (path.Below ancestor) := by
  unfold Below; infer_instance

theorem below_iff {path ancestor : CanonicalPath} :
    path.Below ancestor ↔ ancestor.path.names <+: path.path.names :=
  Path.startsWith_iff

theorem exists_of_parse {raw : String} {path : Path} (h : Path.parse raw = .ok path) :
    ∃ p : CanonicalPath, p.path = path :=
  ⟨⟨path, Path.canonical_of_parse h⟩, rfl⟩

theorem Below.refl (path : CanonicalPath) : path.Below path := below_iff.mpr List.prefix_rfl

/-- Strictly below a path there is at least one name more. -/
theorem Below.names_eq {path ancestor : CanonicalPath} (h : path.Below ancestor)
    (hne : path ≠ ancestor) :
    ∃ name rest, path.path.names = ancestor.path.names ++ name :: rest := by
  obtain ⟨rest, hrest⟩ := below_iff.mp h
  cases rest with
  | nil => exact absurd (ext_names (by rw [← hrest, List.append_nil])) hne
  | cons name rest => exact ⟨name, rest, hrest.symm⟩

theorem Below.antisymm {p q : CanonicalPath} (hp : p.Below q) (hq : q.Below p) : p = q :=
  ext_names ((below_iff.mp hq).eq_of_length_le (below_iff.mp hp).length_le)

end CanonicalPath

def FlatTree := CanonicalPath → Option Entry

namespace FlatTree

/-- No file stands above the path. -/
def Open (tree : FlatTree) (path : CanonicalPath) : Prop :=
  ∀ above, path.Below above → above ≠ path → ∀ content, tree above ≠ some (.file content)

/-- The entry at its path, and a directory at every path above at which there is none. -/
def put (tree : FlatTree) (path : CanonicalPath) (entry : Entry) : FlatTree := fun p =>
  if p = path then some entry
  else if path.Below p then some ((tree p).getD .directory)
  else tree p

/-- Another content for the file at the path. -/
def write (tree : FlatTree) (path : CanonicalPath) (content : String) : FlatTree := fun p =>
  if p = path then some (.file content) else tree p

def erase (tree : FlatTree) (path : CanonicalPath) : FlatTree := fun p =>
  if p = path then none else tree p

/-- Nothing at the path and below it. -/
def eraseBelow (tree : FlatTree) (path : CanonicalPath) : FlatTree := fun p =>
  if p.Below path then none else tree p

/-- What stood at `source` and below it stands at the same place under `target`, which lacks no
directory above. -/
structure Moved (tree : FlatTree) (source target : CanonicalPath) (tree' : FlatTree) : Prop where
  carried : ∀ p p' : CanonicalPath,
    p.path.rebase? source.path target.path = some p'.path → tree' p' = tree p
  vacated : ∀ p : CanonicalPath, p.Below source → tree' p = none
  above : ∀ p, target.Below p → p ≠ target → tree' p = some ((tree p).getD .directory)
  elsewhere : ∀ p : CanonicalPath, ¬ p.Below source → ¬ p.Below target → ¬ target.Below p →
    tree' p = tree p

/-- What a command makes of a flat tree that permits it. -/
inductive Step (tree : FlatTree) : Command → FlatTree → Prop
  | createFile {raw content : String} {path : CanonicalPath}
      (hp : Path.parse raw = .ok path.path) (hn : tree path = none) (ho : tree.Open path) :
      Step tree (.createFile raw content) (tree.put path (.file content))
  | replaceFile {raw content old : String} {path : CanonicalPath}
      (hp : Path.parse raw = .ok path.path) (hf : tree path = some (.file old)) :
      Step tree (.createFile raw content) (tree.write path content)
  | updateFile {raw content old : String} {path : CanonicalPath}
      (hp : Path.parse raw = .ok path.path) (hf : tree path = some (.file old)) :
      Step tree (.updateFile raw content) (tree.write path content)
  | createDirectory {raw : String} {path : CanonicalPath}
      (hp : Path.parse raw = .ok path.path) (hn : tree path = none) (ho : tree.Open path) :
      Step tree (.createDirectory raw) (tree.put path .directory)
  | keepDirectory {raw : String} {path : CanonicalPath}
      (hp : Path.parse raw = .ok path.path) (hd : tree path = some .directory) :
      Step tree (.createDirectory raw) tree
  | replaceInFile {raw old new content : String} {path : CanonicalPath} {before behind : List Char}
      (hp : Path.parse raw = .ok path.path) (hf : tree path = some (.file content))
      (hne : old ≠ "") (ho : Text.SoleOccurrence old.toList content.toList before behind) :
      Step tree (.replaceInFile raw old new)
        (tree.write path (String.ofList (before ++ new.toList ++ behind)))
  | insertInFile {raw text content : String} {line : UInt64} {path : CanonicalPath}
      {lines : List String} (hp : Path.parse raw = .ok path.path)
      (hf : tree path = some (.file content)) (hne : lines ≠ [])
      (hfree : ∀ written ∈ lines, '\n' ∉ written.toList)
      (hj : "\n".intercalate lines = content) (hl : line.toNat ≤ lines.length) :
      Step tree (.insertInFile raw line text)
        (tree.write path
          ("\n".intercalate (lines.take line.toNat ++ text :: lines.drop line.toNat)))
  | deleteFile {raw content : String} {path : CanonicalPath}
      (hp : Path.parse raw = .ok path.path) (hf : tree path = some (.file content)) :
      Step tree (.deleteFile raw) (tree.erase path)
  | deleteDirectory {raw : String} {path : CanonicalPath}
      (hp : Path.parse raw = .ok path.path) (hr : path.path ≠ .root)
      (hd : tree path = some .directory) :
      Step tree (.deleteDirectory raw) (tree.eraseBelow path)
  | rename {rawSource rawTarget : String} {source target : CanonicalPath} {entry : Entry}
      {tree' : FlatTree} (hs : Path.parse rawSource = .ok source.path)
      (ht : Path.parse rawTarget = .ok target.path) (hrs : source.path ≠ .root)
      (hrt : target.path ≠ .root) (hn : tree source = some entry) (hw : ¬ target.Below source)
      (hf : tree target = none) (ho : tree.Open target) (hm : tree.Moved source target tree') :
      Step tree (.rename rawSource rawTarget) tree'
  | keepPlace {rawSource rawTarget : String} {path : CanonicalPath} {entry : Entry}
      (hs : Path.parse rawSource = .ok path.path) (ht : Path.parse rawTarget = .ok path.path)
      (hr : path.path ≠ .root) (hn : tree path = some entry) :
      Step tree (.rename rawSource rawTarget) tree

/-- A move leaves no choice of the tree that it ends in. -/
theorem Moved.unique {tree a b : FlatTree} {source target : CanonicalPath}
    (ha : tree.Moved source target a) (hb : tree.Moved source target b) : a = b := by
  funext p
  by_cases ht : p.Below target
  · obtain ⟨rest, hrest⟩ := CanonicalPath.below_iff.mp ht
    have hc : (⟨source.path.names ++ rest⟩ : Path).Canonical := by
      intro name hm
      rcases List.mem_append.mp hm with hm | hm
      · exact source.canonical name hm
      · exact p.canonical name (hrest ▸ List.mem_append_right _ hm)
    have hq := (Path.rebase?_eq_some_iff hc source.canonical target.canonical).mpr
      ⟨rest, rfl, hrest.symm⟩
    rw [ha.carried ⟨_, hc⟩ p hq, hb.carried ⟨_, hc⟩ p hq]
  · by_cases hs : p.Below source
    · rw [ha.vacated p hs, hb.vacated p hs]
    · by_cases hp : target.Below p
      · have hne : p ≠ target := fun he => ht (he ▸ hp)
        rw [ha.above p hp hne, hb.above p hp hne]
      · rw [ha.elsewhere p hs ht hp, hb.elsewhere p hs ht hp]

/-- Above an open path there is no file to be kept. -/
theorem Open.getD_eq {tree : FlatTree} {path above : CanonicalPath} (h : tree.Open path)
    (hb : path.Below above) (hne : above ≠ path) : (tree above).getD .directory = .directory := by
  cases ht : tree above with
  | none => rfl
  | some entry =>
    cases entry with
    | directory => rfl
    | file content => exact absurd ht (h above hb hne content)

end FlatTree

namespace Store

/-- What stands at each path. -/
def flat (store : Store) : FlatTree := fun p => (store.node? p.path).map Node.entry

theorem flat_announce (store : Store) (change : Change) :
    (store.announce change).flat = store.flat :=
  rfl

theorem flat_apply (store : Store) (p : CanonicalPath) :
    store.flat p = store.root.entryAt p.path.names := by
  rw [flat, node?, p.canonical.segments_eq]
  rfl

theorem flat_eq_none_iff {store : Store} {p : CanonicalPath} :
    store.flat p = none ↔ store.node? p.path = none :=
  Option.map_eq_none_iff

theorem flat_eq_file_iff {store : Store} {p : CanonicalPath} {content : String} :
    store.flat p = some (.file content) ↔
      ∃ stored, store.node? p.path = some (.file stored content) := by
  rw [flat]
  cases store.node? p.path with
  | none => simp
  | some node => cases node <;> simp [Node.entry]

theorem flat_eq_directory_iff {store : Store} {p : CanonicalPath} :
    store.flat p = some .directory ↔
      ∃ stored children, store.node? p.path = some (.directory stored children) := by
  rw [flat]
  cases store.node? p.path with
  | none => simp
  | some node => cases node <;> simp [Node.entry]

theorem unblocked_iff {store : Store} (h : store.root.isDirectory = true) {p : CanonicalPath} :
    store.Unblocked p.path ↔ store.flat.Open p := by
  rw [Unblocked, p.canonical.segments_eq, Node.blockedAfter?_eq_none_iff h]
  constructor
  · intro ho above hb hne content
    rw [flat_apply]
    exact ho _ (CanonicalPath.below_iff.mp hb) (fun he => hne (CanonicalPath.ext_names he)) content
  · intro ho front hp hne content
    have hc : (⟨front⟩ : Path).Canonical := fun name hm => p.canonical name (hp.subset hm)
    have hfile := ho ⟨_, hc⟩ (CanonicalPath.below_iff.mpr hp)
      (fun he => hne (congrArg (·.path.names) he)) content
    rw [flat_apply] at hfile
    exact hfile

/-- What is seen of a tree into which a node was put. -/
theorem flat_insert {store : Store} {p : CanonicalPath} {node : Node} (hnode : node.path = p.path)
    (ho : store.root.Open p.path.names) (q : CanonicalPath) :
    (store.insert node).flat q =
      if p.path.names <+: q.path.names then node.entryAt (q.path.names.drop p.path.names.length)
      else if q.path.names <+: p.path.names then some .directory
      else store.flat q := by
  rw [flat_apply, flat_apply, insert, hnode, p.canonical.segments_eq]
  exact Node.entryAt_put _ node ho _

/-- A leaf that is put where nothing stands hides nothing. -/
theorem flat_insert_leaf {store : Store} (hd : store.root.isDirectory = true) {p : CanonicalPath}
    (node : Node) (hnode : node.path = p.path)
    (hleaf : ∀ name rest, node.entryAt (name :: rest) = none) (hn : store.flat p = none)
    (ho : store.flat.Open p) : (store.insert node).flat = store.flat.put p node.entry := by
  have hopen := (Node.blockedAfter?_eq_none_iff hd _).mp ((unblocked_iff hd).mpr ho)
  rw [p.canonical.segments_eq] at hopen
  funext q
  rw [flat_insert hnode hopen, FlatTree.put]
  by_cases he : q = p
  · subst he
    simp
  · rw [if_neg he]
    by_cases hq : q.Below p
    · have hnb : ¬ p.Below q := fun hb => he (hq.antisymm hb)
      obtain ⟨name, rest, hrest⟩ := hq.names_eq he
      rw [flat_apply] at hn
      rw [if_pos (CanonicalPath.below_iff.mp hq), if_neg hnb, flat_apply, hrest, List.drop_left,
        hleaf, Node.entryAt_append_of_none _ hn]
    · rw [if_neg fun h => hq (CanonicalPath.below_iff.mpr h)]
      by_cases hb : p.Below q
      · rw [if_pos (CanonicalPath.below_iff.mp hb), if_pos hb, ho.getD_eq hb he]
      · rw [if_neg fun h => hb (CanonicalPath.below_iff.mpr h), if_neg hb]

theorem flat_overwritten {store : Store} {p : CanonicalPath} {old : String} (content : String)
    (hf : store.flat p = some (.file old)) :
    (store.overwritten p.path content).flat = store.flat.write p content := by
  funext q
  rw [flat_apply] at hf
  have hset := Node.entryAt_setContent content hf q.path.names
  rw [flat_apply, overwritten, announce, write, p.canonical.segments_eq]
  rw [hset, FlatTree.write, flat_apply]
  by_cases he : q = p
  · subst he
    simp
  · rw [if_neg he, if_neg fun h => he (CanonicalPath.ext_names h)]

theorem flat_remove {store : Store} {p : CanonicalPath} (hp : p.path.names ≠ []) :
    (store.remove p.path).flat = store.flat.eraseBelow p := by
  funext q
  rw [flat_apply, remove, p.canonical.segments_eq, Node.entryAt_remove _ hp, FlatTree.eraseBelow,
    flat_apply]
  by_cases hb : q.Below p
  · rw [if_pos (CanonicalPath.below_iff.mp hb), if_pos hb]
  · rw [if_neg fun h => hb (CanonicalPath.below_iff.mpr h), if_neg hb]

/-- With a file nothing else goes. -/
theorem eraseBelow_of_file {store : Store} {p : CanonicalPath} {content : String}
    (hf : store.flat p = some (.file content)) : store.flat.eraseBelow p = store.flat.erase p := by
  funext q
  rw [FlatTree.eraseBelow, FlatTree.erase]
  by_cases he : q = p
  · subst he
    rw [if_pos (.refl q), if_pos rfl]
  · rw [if_neg he]
    split
    · rename_i hb
      obtain ⟨name, rest, hrest⟩ := hb.names_eq he
      rw [flat_apply] at hf
      rw [flat_apply, hrest, Node.entryAt_append_of_file hf (List.cons_ne_nil _ _)]
    · rfl

/-- Taking a node away and putting it elsewhere moves it and everything below it. -/
theorem moved {store : Store} (hd : store.root.isDirectory = true) {source target : CanonicalPath}
    {node : Node} (hs : source.path.names ≠ []) (hn : store.node? source.path = some node)
    (hw : ¬ target.Below source) (hf : store.flat target = none) (ho : store.flat.Open target) :
    store.flat.Moved source target
      ((store.remove source.path).insert (node.relocate target.path)).flat := by
  have hfound : store.root.get? source.path.names = some node := by
    rw [← hn, node?, source.canonical.segments_eq]
  have hd' : (store.remove source.path).root.isDirectory = true :=
    (Node.isDirectory_remove _ _).trans hd
  have hopen : (store.remove source.path).flat.Open target := by
    intro above hb hne content
    rw [flat_remove hs, FlatTree.eraseBelow]
    split
    · exact Option.some_ne_none _ |>.symm
    · exact ho above hb hne content
  have hput := (Node.blockedAfter?_eq_none_iff hd' _).mp ((unblocked_iff hd').mpr hopen)
  rw [target.canonical.segments_eq] at hput
  have hflat := flat_insert (Node.path_relocate target.path node) hput
  simp only [Node.entryAt_relocate, ← CanonicalPath.below_iff] at hflat
  -- Nothing stands at `target`, so `source` is not below it, and the two share nothing below.
  have hapart : ∀ p : CanonicalPath, p.Below source → ¬ p.Below target := by
    intro p hps hpt
    rcases List.prefix_or_prefix_of_prefix (CanonicalPath.below_iff.mp hps)
      (CanonicalPath.below_iff.mp hpt) with h | ⟨rest, hrest⟩
    · exact hw (CanonicalPath.below_iff.mpr h)
    · rw [flat_apply] at hf
      have hnone := Node.entryAt_append_of_none rest hf
      rw [hrest, Node.entryAt, hfound] at hnone
      cases hnone
  constructor
  · intro p p' hp
    obtain ⟨rest, hrest, hrest'⟩ := (Path.rebase?_eq_some_iff p.canonical source.canonical
      target.canonical).mp hp
    rw [hflat, if_pos (CanonicalPath.below_iff.mpr ⟨rest, hrest'.symm⟩), hrest', List.drop_left,
      flat_apply, hrest, Node.entryAt_append, hfound]
    rfl
  · intro p hp
    have habove : ¬ target.Below p := fun h =>
      hw (CanonicalPath.below_iff.mpr
        ((CanonicalPath.below_iff.mp hp).trans (CanonicalPath.below_iff.mp h)))
    rw [hflat, if_neg (hapart p hp), if_neg habove, flat_remove hs, FlatTree.eraseBelow, if_pos hp]
  · intro p hb hne
    have hnt : ¬ p.Below target := fun h => hne (h.antisymm hb)
    rw [hflat, if_neg hnt, if_pos hb, ho.getD_eq hb hne]
  · intro p hps hpt hb
    rw [hflat, if_neg hpt, if_neg hb, flat_remove hs, FlatTree.eraseBelow, if_neg hps]

end Store

theorem Path.isRoot_eq_false_iff {path : Path} : path.isRoot = false ↔ path ≠ .root := by
  obtain ⟨names⟩ := path
  cases names <;> simp [Path.isRoot, Path.root]

theorem Path.names_ne_nil_iff {path : Path} : path.names ≠ [] ↔ path ≠ .root := by
  obtain ⟨names⟩ := path
  simp [Path.root]

theorem Store.names_ne_nil_of_flat_eq_file {store : Store} (h : store.root.isDirectory = true)
    {p : CanonicalPath} {content : String} (hf : store.flat p = some (.file content)) :
    p.path.names ≠ [] := by
  intro he
  rw [Store.flat_apply, he, Node.entryAt_nil, Node.entry_eq_directory_iff.mpr h] at hf
  cases hf

/-- What a command does to the tree it does to the flat tree. -/
theorem Store.Step.flat {store store' : Store} {command : Command} (h : store.WellFormed)
    (hs : store.Step command store') : FlatTree.Step store.flat command store'.flat := by
  have hd := h.isDirectory
  cases hs with
  | createFile hp hn hu =>
    obtain ⟨path, rfl⟩ := CanonicalPath.exists_of_parse hp
    have hn := flat_eq_none_iff.mpr hn
    have ho := (unblocked_iff hd).mp hu
    rw [flat_announce, flat_insert_leaf hd (.file path.path _) rfl (fun _ _ => rfl) hn ho]
    exact .createFile hp hn ho
  | replaceFile hp hf =>
    obtain ⟨path, rfl⟩ := CanonicalPath.exists_of_parse hp
    have hf := flat_eq_file_iff.mpr ⟨_, hf⟩
    rw [flat_overwritten _ hf]
    exact .replaceFile hp hf
  | updateFile hp hf =>
    obtain ⟨path, rfl⟩ := CanonicalPath.exists_of_parse hp
    have hf := flat_eq_file_iff.mpr ⟨_, hf⟩
    rw [flat_overwritten _ hf]
    exact .updateFile hp hf
  | createDirectory hp hn hu =>
    obtain ⟨path, rfl⟩ := CanonicalPath.exists_of_parse hp
    have hn := flat_eq_none_iff.mpr hn
    have ho := (unblocked_iff hd).mp hu
    rw [flat_announce, flat_insert_leaf hd (.empty path.path) rfl (fun _ _ => rfl) hn ho]
    exact .createDirectory hp hn ho
  | keepDirectory hp hf =>
    obtain ⟨path, rfl⟩ := CanonicalPath.exists_of_parse hp
    exact .keepDirectory hp (flat_eq_directory_iff.mpr ⟨_, _, hf⟩)
  | replaceInFile hp hf hne ho =>
    obtain ⟨path, rfl⟩ := CanonicalPath.exists_of_parse hp
    have hf := flat_eq_file_iff.mpr ⟨_, hf⟩
    obtain ⟨before, behind, hsole⟩ := (Text.occurrences_eq_one_iff hne).mp ho
    rw [flat_overwritten _ hf, Text.replaceFirst_of_firstOccurrence _ hsole.toFirstOccurrence]
    exact .replaceInFile hp hf hne hsole
  | insertInFile hp hf hl =>
    obtain ⟨path, rfl⟩ := CanonicalPath.exists_of_parse hp
    have hf := flat_eq_file_iff.mpr ⟨_, hf⟩
    obtain ⟨hne, hfree, hj⟩ := Text.eq_pieces_iff.mp (Text.splitLines_eq_pieces _)
    rw [flat_overwritten _ hf]
    exact .insertInFile hp hf hne hfree hj hl
  | deleteFile hp hf =>
    obtain ⟨path, rfl⟩ := CanonicalPath.exists_of_parse hp
    have hf := flat_eq_file_iff.mpr ⟨_, hf⟩
    rw [flat_announce, flat_remove (names_ne_nil_of_flat_eq_file hd hf), eraseBelow_of_file hf]
    exact .deleteFile hp hf
  | deleteDirectory hp hr hf =>
    obtain ⟨path, rfl⟩ := CanonicalPath.exists_of_parse hp
    have hr := Path.isRoot_eq_false_iff.mp hr
    rw [flat_announce, flat_remove (Path.names_ne_nil_iff.mpr hr)]
    exact .deleteDirectory hp hr (flat_eq_directory_iff.mpr ⟨_, _, hf⟩)
  | rename hps hpt hrs hrt hn hw hf hu =>
    obtain ⟨source, rfl⟩ := CanonicalPath.exists_of_parse hps
    obtain ⟨target, rfl⟩ := CanonicalPath.exists_of_parse hpt
    have hrs := Path.isRoot_eq_false_iff.mp hrs
    have hrt := Path.isRoot_eq_false_iff.mp hrt
    have hw : ¬ target.Below source := Bool.eq_false_iff.mp hw
    have hf := flat_eq_none_iff.mpr hf
    have ho := (unblocked_iff hd).mp hu
    exact .rename hps hpt hrs hrt (congrArg (Option.map Node.entry) hn) hw hf ho
      (moved hd (Path.names_ne_nil_iff.mpr hrs) hn hw hf ho)
  | keepPlace hps hpt hr hn =>
    obtain ⟨path, rfl⟩ := CanonicalPath.exists_of_parse hps
    exact .keepPlace hps hpt (Path.isRoot_eq_false_iff.mp hr) (congrArg (Option.map Node.entry) hn)

/-- Whatever the flat tree permits the tree permits too. -/
theorem FlatTree.Step.exists_step {store : Store} {command : Command} {tree : FlatTree}
    (h : store.WellFormed) (hs : FlatTree.Step store.flat command tree) :
    ∃ store', store.Step command store' ∧ store'.flat = tree := by
  have hd := h.isDirectory
  cases hs with
  | @createFile raw content path hp hn ho =>
    exact ⟨_, .createFile hp (Store.flat_eq_none_iff.mp hn) ((Store.unblocked_iff hd).mpr ho),
      Store.flat_insert_leaf hd (.file path.path content) rfl (fun _ _ => rfl) hn ho⟩
  | replaceFile hp hf =>
    obtain ⟨stored, hn⟩ := Store.flat_eq_file_iff.mp hf
    exact ⟨_, .replaceFile hp hn, Store.flat_overwritten _ hf⟩
  | updateFile hp hf =>
    obtain ⟨stored, hn⟩ := Store.flat_eq_file_iff.mp hf
    exact ⟨_, .updateFile hp hn, Store.flat_overwritten _ hf⟩
  | @createDirectory raw path hp hn ho =>
    exact ⟨_, .createDirectory hp (Store.flat_eq_none_iff.mp hn) ((Store.unblocked_iff hd).mpr ho),
      Store.flat_insert_leaf hd (.empty path.path) rfl (fun _ _ => rfl) hn ho⟩
  | keepDirectory hp hf =>
    obtain ⟨stored, children, hn⟩ := Store.flat_eq_directory_iff.mp hf
    exact ⟨store, .keepDirectory hp hn, rfl⟩
  | @replaceInFile raw old new content path before behind hp hf hne ho =>
    obtain ⟨stored, hn⟩ := Store.flat_eq_file_iff.mp hf
    refine ⟨_, .replaceInFile hp hn hne ((Text.occurrences_eq_one_iff hne).mpr ⟨_, _, ho⟩), ?_⟩
    rw [Store.flat_overwritten _ hf, Text.replaceFirst_of_firstOccurrence _ ho.toFirstOccurrence]
  | insertInFile hp hf hne hfree hj hl =>
    obtain ⟨stored, hn⟩ := Store.flat_eq_file_iff.mp hf
    have hlines := Text.eq_pieces_iff.mpr ⟨hne, hfree, hj⟩
    rw [← Text.splitLines_eq_pieces] at hlines
    subst hlines
    exact ⟨_, .insertInFile hp hn hl, Store.flat_overwritten _ hf⟩
  | deleteFile hp hf =>
    obtain ⟨stored, hn⟩ := Store.flat_eq_file_iff.mp hf
    refine ⟨_, .deleteFile hp hn, ?_⟩
    rw [Store.flat_announce, Store.flat_remove (Store.names_ne_nil_of_flat_eq_file hd hf),
      Store.eraseBelow_of_file hf]
  | deleteDirectory hp hr hf =>
    obtain ⟨stored, children, hn⟩ := Store.flat_eq_directory_iff.mp hf
    exact ⟨_, .deleteDirectory hp (Path.isRoot_eq_false_iff.mpr hr) hn,
      Store.flat_remove (Path.names_ne_nil_iff.mpr hr)⟩
  | rename hps hpt hrs hrt hn hw hf ho hm =>
    obtain ⟨node, hnode, _⟩ := Option.map_eq_some_iff.mp hn
    refine ⟨_, .rename hps hpt (Path.isRoot_eq_false_iff.mpr hrs) (Path.isRoot_eq_false_iff.mpr hrt)
      hnode (Bool.eq_false_iff.mpr hw) (Store.flat_eq_none_iff.mp hf)
      ((Store.unblocked_iff hd).mpr ho), ?_⟩
    exact (Store.moved hd (Path.names_ne_nil_iff.mpr hrs) hnode hw hf ho).unique hm
  | keepPlace hps hpt hr hn =>
    obtain ⟨node, hnode, _⟩ := Option.map_eq_some_iff.mp hn
    exact ⟨store, .keepPlace hps hpt (Path.isRoot_eq_false_iff.mpr hr) hnode, rfl⟩

/-- A command succeeds on a reachable store exactly when the flat tree permits it, and then the flat
tree changes as its step says. -/
theorem Store.Reachable.flat_step_iff {store : Store} (h : store.Reachable) (command : Command)
    (tree : FlatTree) :
    FlatTree.Step store.flat command tree ↔
      ∃ store', command.apply store = .ok () store' ∧ store'.flat = tree := by
  have hw := h.wellFormed
  constructor
  · intro hs
    obtain ⟨store', hstep, hflat⟩ := hs.exists_step hw
    exact ⟨store', hstep.apply_eq, hflat⟩
  · rintro ⟨store', happly, rfl⟩
    exact (Command.step_of_apply happly).flat hw

theorem Store.flat_step_rename :
    let store := Store.empty.attempt (.createFile "/a/b" "x")
    ∃ tree, FlatTree.Step store.flat (.rename "/a" "/c/d") tree ∧
      tree ⟨⟨["c", "d", "b"]⟩, by decide⟩ = some (.file "x") ∧
      tree ⟨⟨["c"]⟩, by decide⟩ = some .directory ∧ tree ⟨⟨["a"]⟩, by decide⟩ = none := by
  refine ⟨_, (Store.Reachable.flat_step_iff (.attempted _ .empty) _ _).mpr ⟨_, rfl, rfl⟩, ?_⟩
  decide +kernel

end LivePreview
