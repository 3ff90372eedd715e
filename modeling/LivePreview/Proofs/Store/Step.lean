import LivePreview.Command

/-!
# What a command does

`Store.Step` lists everything that a command can do to a store, with the condition under which it
does it. The list is complete (`Command.step_of_apply`), and nothing in it is idle
(`Store.Step.apply_eq`): a command succeeds exactly when its condition holds, and with exactly that
result.
-/
namespace LivePreview

theorem bind_eq_ok {ε α β : Type} {x : Except ε α} {f : α → Except ε β} {b : β} :
    x >>= f = .ok b ↔ ∃ a, x = .ok a ∧ f a = .ok b := by
  cases x with
  | error e => exact ⟨fun h => (nomatch h), fun ⟨_, h, _⟩ => (nomatch h)⟩
  | ok a =>
    constructor
    · exact fun h => ⟨a, rfl, h⟩
    · rintro ⟨a', ha, h⟩
      obtain rfl := Except.ok.inj ha
      exact h

namespace Store

/-- No file stands where a directory on the way to the path has to be. -/
def Unblocked (store : Store) (path : Path) : Prop :=
  store.root.blockedAfter? path.segments = none

/-- The store with another content in a file, and with the change announced. -/
def overwritten (store : Store) (path : Path) (content : String) : Store :=
  (store.write path content).announce ⟨.fileUpdated, path, none⟩

inductive Step (store : Store) : Command → Store → Prop
  | createFile {raw content : String} {path : Path} (hp : Path.parse raw = .ok path)
      (hn : store.node? path = none) (hu : store.Unblocked path) :
      Step store (.createFile raw content)
        ((store.insert (.file path content)).announce ⟨.fileCreated, path, none⟩)
  | replaceFile {raw content old : String} {path stored : Path} (hp : Path.parse raw = .ok path)
      (hf : store.node? path = some (.file stored old)) :
      Step store (.createFile raw content) (store.overwritten path content)
  | updateFile {raw content old : String} {path stored : Path} (hp : Path.parse raw = .ok path)
      (hf : store.node? path = some (.file stored old)) :
      Step store (.updateFile raw content) (store.overwritten path content)
  | createDirectory {raw : String} {path : Path} (hp : Path.parse raw = .ok path)
      (hn : store.node? path = none) (hu : store.Unblocked path) :
      Step store (.createDirectory raw)
        ((store.insert (.empty path)).announce ⟨.directoryCreated, path, none⟩)
  | keepDirectory {raw : String} {path stored : Path} {children : List (String × Node)}
      (hp : Path.parse raw = .ok path)
      (hd : store.node? path = some (.directory stored children)) :
      Step store (.createDirectory raw) store
  | replaceInFile {raw old new content : String} {path stored : Path}
      (hp : Path.parse raw = .ok path) (hf : store.node? path = some (.file stored content))
      (hne : old ≠ "") (ho : Text.occurrences old content = 1) :
      Step store (.replaceInFile raw old new)
        (store.overwritten path (Text.replaceFirst old new content))
  | insertInFile {raw text content : String} {line : UInt64} {path stored : Path}
      (hp : Path.parse raw = .ok path) (hf : store.node? path = some (.file stored content))
      (hl : line.toNat ≤ (Text.splitLines content).length) :
      Step store (.insertInFile raw line text)
        (store.overwritten path (Text.joinLines ((Text.splitLines content).take line.toNat ++
          text :: (Text.splitLines content).drop line.toNat)))
  | deleteFile {raw content : String} {path stored : Path} (hp : Path.parse raw = .ok path)
      (hf : store.node? path = some (.file stored content)) :
      Step store (.deleteFile raw) ((store.remove path).announce ⟨.fileDeleted, path, none⟩)
  | deleteDirectory {raw : String} {path stored : Path} {children : List (String × Node)}
      (hp : Path.parse raw = .ok path) (hr : path.isRoot = false)
      (hd : store.node? path = some (.directory stored children)) :
      Step store (.deleteDirectory raw)
        ((store.remove path).announce ⟨.directoryDeleted, path, none⟩)
  | rename {rawSource rawTarget : String} {source target : Path} {node : Node}
      (hs : Path.parse rawSource = .ok source) (ht : Path.parse rawTarget = .ok target)
      (hrs : source.isRoot = false) (hrt : target.isRoot = false)
      (hn : store.node? source = some node) (hw : target.startsWith source = false)
      (hf : store.node? target = none) (hu : store.Unblocked target) :
      Step store (.rename rawSource rawTarget)
        (((store.remove source).insert (node.relocate target)).announce
          ⟨.renamed, target, some source⟩)
  | keepPlace {rawSource rawTarget : String} {path : Path} {node : Node}
      (hs : Path.parse rawSource = .ok path) (ht : Path.parse rawTarget = .ok path)
      (hr : path.isRoot = false) (hn : store.node? path = some node) :
      Step store (.rename rawSource rawTarget) store

theorem parse_eq_ok_iff {raw : String} {path : Path} :
    parse raw = .ok path ↔ Path.parse raw = .ok path := by
  rw [parse]
  cases Path.parse raw with
  | error cause => exact ⟨fun h => (nomatch h), fun h => (nomatch h)⟩
  | ok found =>
    constructor
    · intro h
      exact congrArg Except.ok (Except.ok.inj h)
    · intro h
      exact congrArg Except.ok (Except.ok.inj h)

theorem contentAt_eq_ok_iff {store : Store} {path : Path} {content : String} :
    store.contentAt path = .ok content ↔
      ∃ stored, store.node? path = some (.file stored content) := by
  rw [contentAt]
  cases store.node? path with
  | none => simp
  | some node => cases node <;> simp [Node.content?]

theorem requireFile_eq_ok_iff {store : Store} {path : Path} {content : String} :
    store.requireFile path = .ok content ↔
      ∃ stored, store.node? path = some (.file stored content) := by
  rw [requireFile]
  cases store.node? path with
  | none => simp
  | some node => cases node <;> simp

theorem requireAncestors_eq_ok_iff {store : Store} {path : Path} :
    store.requireAncestors path = .ok () ↔ store.Unblocked path := by
  rw [requireAncestors, Unblocked]
  cases store.root.blockedAfter? path.segments <;> simp

theorem ensure_eq_ok_iff {condition : Prop} [Decidable condition] {cause : StoreError} :
    ensure condition cause = .ok () ↔ condition := by
  rw [ensure]
  split <;> simp [*]

theorem startsWith_self (path : Path) : path.startsWith path = true :=
  List.isPrefixOf_iff_prefix.mpr List.prefix_rfl

/-! ### Statements -/

section

variable {α β : Type} {store store' : Store}

theorem bind_of_ok {operation : StoreM α} {next : α → StoreM β} {a : α}
    (h : operation store = .ok a store') : (operation >>= next) store = next a store' := by
  change EStateM.bind operation next store = _
  rw [EStateM.bind, h]

theorem bind_of_error {operation : StoreM α} {next : α → StoreM β} {cause : StoreError}
    (h : operation store = .error cause store') :
    (operation >>= next) store = .error cause store' := by
  change EStateM.bind operation next store = _
  rw [EStateM.bind, h]

theorem ask_of_ok {query : Store → Except StoreError α} {a : α} (h : query store = .ok a) :
    ask query store = .ok a store := by
  rw [ask, h]

theorem ask_of_error {query : Store → Except StoreError α} {cause : StoreError}
    (h : query store = .error cause) : ask query store = .error cause store := by
  rw [ask, h]

/-- A question is answered from the store that the rest goes on with. -/
theorem ask_bind_eq_ok_iff {query : Store → Except StoreError α} {next : α → StoreM β} {b : β} :
    (ask query >>= next) store = .ok b store' ↔
      ∃ a, query store = .ok a ∧ next a store = .ok b store' := by
  cases hq : query store with
  | error cause =>
    rw [bind_of_error (ask_of_error hq)]
    exact ⟨fun h => (nomatch h), fun ⟨_, h, _⟩ => (nomatch h)⟩
  | ok a =>
    rw [bind_of_ok (ask_of_ok hq)]
    constructor
    · exact fun h => ⟨a, rfl, h⟩
    · rintro ⟨a', ha, h⟩
      obtain rfl := Except.ok.inj ha
      exact h

theorem get_bind (next : Store → StoreM β) : (get >>= next) store = next store store := rfl

theorem detach_eq {path : Path} {node : Node} (hr : path.isRoot = false)
    (hn : store.node? path = some node) :
    detach path store = .ok (some node) (store.remove path) := by
  change EStateM.Result.ok (if path.isRoot then none else store.node? path) _ = _
  rw [if_neg (Bool.eq_false_iff.mp hr), hn]

theorem move_eq {source target : Path} {node : Node} (hr : source.isRoot = false)
    (hn : store.node? source = some node) :
    move source target store = .ok () ((store.remove source).insert (node.relocate target)) :=
  bind_of_ok (detach_eq hr hn)

end

/-! ### What each operation does -/

section

variable {store store' : Store} {raw content : String}

theorem step_of_createFile (h : store.createFile raw content = .ok () store') :
    store.Step (.createFile raw content) store' := by
  obtain ⟨path, hp, h⟩ := ask_bind_eq_ok_iff.mp h
  rw [parse_eq_ok_iff] at hp
  rw [get_bind] at h
  match hn : store.node? path with
  | some (.directory _ _) =>
    rw [hn] at h
    cases h
  | some (.file _ _) =>
    rw [hn] at h
    cases h
    exact .replaceFile hp hn
  | none =>
    rw [hn] at h
    obtain ⟨_, hu, h⟩ := ask_bind_eq_ok_iff.mp h
    cases h
    exact .createFile hp hn (requireAncestors_eq_ok_iff.mp hu)

theorem step_of_updateFile (h : store.updateFile raw content = .ok () store') :
    store.Step (.updateFile raw content) store' := by
  obtain ⟨path, hp, h⟩ := ask_bind_eq_ok_iff.mp h
  rw [parse_eq_ok_iff] at hp
  obtain ⟨old, hr, h⟩ := ask_bind_eq_ok_iff.mp h
  obtain ⟨stored, hf⟩ := requireFile_eq_ok_iff.mp hr
  cases h
  exact .updateFile hp hf

theorem step_of_createDirectory (h : store.createDirectory raw = .ok () store') :
    store.Step (.createDirectory raw) store' := by
  obtain ⟨path, hp, h⟩ := ask_bind_eq_ok_iff.mp h
  rw [parse_eq_ok_iff] at hp
  rw [get_bind] at h
  match hn : store.node? path with
  | some (.directory _ _) =>
    rw [hn] at h
    cases h
    exact .keepDirectory hp hn
  | some (.file _ _) =>
    rw [hn] at h
    cases h
  | none =>
    rw [hn] at h
    obtain ⟨_, hu, h⟩ := ask_bind_eq_ok_iff.mp h
    cases h
    exact .createDirectory hp hn (requireAncestors_eq_ok_iff.mp hu)

theorem step_of_replaceInFile {old new : String}
    (h : store.replaceInFile raw old new = .ok () store') :
    store.Step (.replaceInFile raw old new) store' := by
  obtain ⟨path, hp, h⟩ := ask_bind_eq_ok_iff.mp h
  obtain ⟨content, hc, h⟩ := ask_bind_eq_ok_iff.mp h
  obtain ⟨_, hne, h⟩ := ask_bind_eq_ok_iff.mp h
  rw [parse_eq_ok_iff] at hp
  obtain ⟨stored, hf⟩ := contentAt_eq_ok_iff.mp hc
  match ho : Text.occurrences old content with
  | 0 =>
    rw [ho] at h
    cases h
  | 1 =>
    rw [ho] at h
    obtain ⟨_, -, h⟩ := ask_bind_eq_ok_iff.mp h
    cases h
    exact .replaceInFile hp hf (ensure_eq_ok_iff.mp hne) ho
  | n + 2 =>
    rw [ho] at h
    cases h

theorem step_of_insertInFile {line : UInt64} {text : String}
    (h : store.insertInFile raw line.toNat text = .ok () store') :
    store.Step (.insertInFile raw line text) store' := by
  obtain ⟨path, hp, h⟩ := ask_bind_eq_ok_iff.mp h
  obtain ⟨content, hc, h⟩ := ask_bind_eq_ok_iff.mp h
  obtain ⟨_, hl, h⟩ := ask_bind_eq_ok_iff.mp h
  obtain ⟨_, -, h⟩ := ask_bind_eq_ok_iff.mp h
  rw [parse_eq_ok_iff] at hp
  obtain ⟨stored, hf⟩ := contentAt_eq_ok_iff.mp hc
  cases h
  exact .insertInFile hp hf (ensure_eq_ok_iff.mp hl)

theorem step_of_deleteFile (h : store.deleteFile raw = .ok () store') :
    store.Step (.deleteFile raw) store' := by
  obtain ⟨path, hp, h⟩ := ask_bind_eq_ok_iff.mp h
  rw [parse_eq_ok_iff] at hp
  obtain ⟨content, hr, h⟩ := ask_bind_eq_ok_iff.mp h
  obtain ⟨stored, hf⟩ := requireFile_eq_ok_iff.mp hr
  cases h
  exact .deleteFile hp hf

theorem step_of_deleteDirectory (h : store.deleteDirectory raw = .ok () store') :
    store.Step (.deleteDirectory raw) store' := by
  obtain ⟨path, hp, h⟩ := ask_bind_eq_ok_iff.mp h
  obtain ⟨_, hr, h⟩ := ask_bind_eq_ok_iff.mp h
  rw [parse_eq_ok_iff] at hp
  rw [get_bind] at h
  match hd : store.node? path with
  | none =>
    rw [hd] at h
    cases h
  | some (.file _ _) =>
    rw [hd] at h
    cases h
  | some (.directory _ _) =>
    rw [hd] at h
    cases h
    exact .deleteDirectory hp (ensure_eq_ok_iff.mp hr) hd

theorem step_of_rename {rawSource rawTarget : String}
    (h : store.rename rawSource rawTarget = .ok () store') :
    store.Step (.rename rawSource rawTarget) store' := by
  obtain ⟨source, hs, h⟩ := ask_bind_eq_ok_iff.mp h
  obtain ⟨target, ht, h⟩ := ask_bind_eq_ok_iff.mp h
  obtain ⟨_, hr, h⟩ := ask_bind_eq_ok_iff.mp h
  obtain ⟨_, hn, h⟩ := ask_bind_eq_ok_iff.mp h
  rw [parse_eq_ok_iff] at hs ht
  obtain ⟨hrs, hrt⟩ := ensure_eq_ok_iff.mp hr
  obtain ⟨node, hn⟩ := Option.isSome_iff_exists.mp (ensure_eq_ok_iff.mp hn)
  by_cases hsame : source = target
  · rw [if_pos hsame] at h
    cases h
    exact .keepPlace hs (hsame ▸ ht) hrs hn
  · rw [if_neg hsame] at h
    obtain ⟨_, hw, h⟩ := ask_bind_eq_ok_iff.mp h
    obtain ⟨_, hf, h⟩ := ask_bind_eq_ok_iff.mp h
    obtain ⟨_, hu, h⟩ := ask_bind_eq_ok_iff.mp h
    rw [bind_of_ok (move_eq hrs hn)] at h
    cases h
    exact .rename hs ht hrs hrt hn (ensure_eq_ok_iff.mp hw) (ensure_eq_ok_iff.mp hf)
      (requireAncestors_eq_ok_iff.mp hu)

end

end Store

/-- Whatever a command does is in the list. -/
theorem Command.step_of_apply {store store' : Store} {command : Command}
    (h : command.apply store = .ok () store') : store.Step command store' := by
  cases command with
  | createFile raw content => exact Store.step_of_createFile h
  | updateFile raw content => exact Store.step_of_updateFile h
  | createDirectory raw => exact Store.step_of_createDirectory h
  | deleteFile raw => exact Store.step_of_deleteFile h
  | deleteDirectory raw => exact Store.step_of_deleteDirectory h
  | rename rawSource rawTarget => exact Store.step_of_rename h
  | replaceInFile raw old new => exact Store.step_of_replaceInFile h
  | insertInFile raw line text => exact Store.step_of_insertInFile h

/-- Whatever is in the list is what a command does. -/
theorem Store.Step.apply_eq {store store' : Store} {command : Command}
    (h : store.Step command store') : command.apply store = .ok () store' := by
  cases h with
  | createFile hp hn hu =>
    refine ask_bind_eq_ok_iff.mpr ⟨_, parse_eq_ok_iff.mpr hp, ?_⟩
    rw [get_bind, hn]
    exact ask_bind_eq_ok_iff.mpr ⟨(), requireAncestors_eq_ok_iff.mpr hu, rfl⟩
  | replaceFile hp hf =>
    refine ask_bind_eq_ok_iff.mpr ⟨_, parse_eq_ok_iff.mpr hp, ?_⟩
    rw [get_bind, hf]
    rfl
  | updateFile hp hf =>
    refine ask_bind_eq_ok_iff.mpr ⟨_, parse_eq_ok_iff.mpr hp, ?_⟩
    exact ask_bind_eq_ok_iff.mpr ⟨_, requireFile_eq_ok_iff.mpr ⟨_, hf⟩, rfl⟩
  | createDirectory hp hn hu =>
    refine ask_bind_eq_ok_iff.mpr ⟨_, parse_eq_ok_iff.mpr hp, ?_⟩
    rw [get_bind, hn]
    exact ask_bind_eq_ok_iff.mpr ⟨(), requireAncestors_eq_ok_iff.mpr hu, rfl⟩
  | keepDirectory hp hd =>
    refine ask_bind_eq_ok_iff.mpr ⟨_, parse_eq_ok_iff.mpr hp, ?_⟩
    rw [get_bind, hd]
    rfl
  | replaceInFile hp hf hne ho =>
    refine ask_bind_eq_ok_iff.mpr ⟨_, parse_eq_ok_iff.mpr hp, ?_⟩
    refine ask_bind_eq_ok_iff.mpr ⟨_, contentAt_eq_ok_iff.mpr ⟨_, hf⟩, ?_⟩
    refine ask_bind_eq_ok_iff.mpr ⟨(), ensure_eq_ok_iff.mpr hne, ?_⟩
    rw [ho]
    exact ask_bind_eq_ok_iff.mpr ⟨_, requireFile_eq_ok_iff.mpr ⟨_, hf⟩, rfl⟩
  | insertInFile hp hf hl =>
    refine ask_bind_eq_ok_iff.mpr ⟨_, parse_eq_ok_iff.mpr hp, ?_⟩
    refine ask_bind_eq_ok_iff.mpr ⟨_, contentAt_eq_ok_iff.mpr ⟨_, hf⟩, ?_⟩
    refine ask_bind_eq_ok_iff.mpr ⟨(), ensure_eq_ok_iff.mpr hl, ?_⟩
    exact ask_bind_eq_ok_iff.mpr ⟨_, requireFile_eq_ok_iff.mpr ⟨_, hf⟩, rfl⟩
  | deleteFile hp hf =>
    refine ask_bind_eq_ok_iff.mpr ⟨_, parse_eq_ok_iff.mpr hp, ?_⟩
    exact ask_bind_eq_ok_iff.mpr ⟨_, requireFile_eq_ok_iff.mpr ⟨_, hf⟩, rfl⟩
  | deleteDirectory hp hr hd =>
    refine ask_bind_eq_ok_iff.mpr ⟨_, parse_eq_ok_iff.mpr hp, ?_⟩
    refine ask_bind_eq_ok_iff.mpr ⟨(), ensure_eq_ok_iff.mpr hr, ?_⟩
    rw [get_bind, hd]
    rfl
  | @rename _ _ source target node hs ht hrs hrt hn hw hf hu =>
    have hne : source ≠ target := by
      rintro rfl
      exact Bool.false_ne_true (hw.symm.trans (startsWith_self source))
    refine ask_bind_eq_ok_iff.mpr ⟨_, parse_eq_ok_iff.mpr hs, ?_⟩
    refine ask_bind_eq_ok_iff.mpr ⟨_, parse_eq_ok_iff.mpr ht, ?_⟩
    refine ask_bind_eq_ok_iff.mpr ⟨(), ensure_eq_ok_iff.mpr ⟨hrs, hrt⟩, ?_⟩
    refine ask_bind_eq_ok_iff.mpr ⟨(), ensure_eq_ok_iff.mpr (Option.isSome_of_eq_some hn), ?_⟩
    rw [if_neg hne]
    refine ask_bind_eq_ok_iff.mpr ⟨(), ensure_eq_ok_iff.mpr hw, ?_⟩
    refine ask_bind_eq_ok_iff.mpr ⟨(), ensure_eq_ok_iff.mpr hf, ?_⟩
    refine ask_bind_eq_ok_iff.mpr ⟨(), requireAncestors_eq_ok_iff.mpr hu, ?_⟩
    rw [bind_of_ok (move_eq hrs hn)]
    rfl
  | keepPlace hs ht hr hn =>
    refine ask_bind_eq_ok_iff.mpr ⟨_, parse_eq_ok_iff.mpr hs, ?_⟩
    refine ask_bind_eq_ok_iff.mpr ⟨_, parse_eq_ok_iff.mpr ht, ?_⟩
    refine ask_bind_eq_ok_iff.mpr ⟨(), ensure_eq_ok_iff.mpr ⟨hr, hr⟩, ?_⟩
    refine ask_bind_eq_ok_iff.mpr ⟨(), ensure_eq_ok_iff.mpr (Option.isSome_of_eq_some hn), ?_⟩
    rw [if_pos rfl]
    rfl

end LivePreview
