import LivePreview.Proofs.Broadcast
import LivePreview.Proofs.Store.FlatTree

/-!
# Announcements

What the receivers of a store learn of the commands on it. `FlatTree.announcement?` gives the record
of a command that succeeds, told by the tree that it meets, and `FlatTree.Records` says what a record
tells of the trees before and after. A receiver gets these records in order, one for each command
since it subscribed that was no request for what is there already.
-/
namespace LivePreview

/-- The path that is written so. -/
def CanonicalPath.parse? (raw : String) : Option CanonicalPath :=
  match h : Path.parse raw with
  | .ok path => some ⟨path, Path.canonical_of_parse h⟩
  | .error _ => none

theorem CanonicalPath.parse?_eq_some_iff {raw : String} {path : CanonicalPath} :
    parse? raw = some path ↔ Path.parse raw = .ok path.path := by
  rw [parse?]
  split
  · rename_i found h
    constructor
    · intro he
      obtain rfl := Option.some.inj he
      exact h
    · intro hp
      exact congrArg some (ext_path (Except.ok.inj (h.symm.trans hp)))
  · rename_i cause h
    exact ⟨fun he => (nomatch he), fun hp => (nomatch h.symm.trans hp)⟩

/-! ### Records -/

namespace FlatTree

/-- The command asks for what is there: a directory where one stands, or a move to the same place. -/
inductive Idle (tree : FlatTree) : Command → Prop
  | keepDirectory {raw : String} {path : CanonicalPath} (hp : Path.parse raw = .ok path.path)
      (hd : tree path = some .directory) : Idle tree (.createDirectory raw)
  | keepPlace {rawSource rawTarget : String} {path : CanonicalPath}
      (hs : Path.parse rawSource = .ok path.path) (ht : Path.parse rawTarget = .ok path.path) :
      Idle tree (.rename rawSource rawTarget)

/-- The record of a change at the path that is written so. -/
def record? (kind : ChangeKind) (raw : String) : Option Change :=
  (CanonicalPath.parse? raw).map fun path => ⟨kind, path.path, none⟩

/-- The record of a command that succeeds on the tree. -/
def announcement? (tree : FlatTree) : Command → Option Change
  | .createFile raw _ =>
    if (CanonicalPath.parse? raw).bind tree = none then record? .fileCreated raw
    else record? .fileUpdated raw
  | .updateFile raw _ | .replaceInFile raw _ _ | .insertInFile raw _ _ => record? .fileUpdated raw
  | .createDirectory raw =>
    if (CanonicalPath.parse? raw).bind tree = some .directory then none
    else record? .directoryCreated raw
  | .deleteFile raw => record? .fileDeleted raw
  | .deleteDirectory raw => record? .directoryDeleted raw
  | .rename rawSource rawTarget =>
    (CanonicalPath.parse? rawSource).bind fun source =>
      (CanonicalPath.parse? rawTarget).bind fun target =>
        if source = target then none else some ⟨.renamed, target.path, some source.path⟩

/-- What a record says of the trees before and after the command. -/
inductive Records (before after : FlatTree) : Change → Prop
  | fileCreated {path : CanonicalPath} {content : String} (hb : before path = none)
      (ha : after path = some (.file content)) :
      Records before after ⟨.fileCreated, path.path, none⟩
  | fileUpdated {path : CanonicalPath} {old new : String} (hb : before path = some (.file old))
      (ha : after path = some (.file new)) :
      Records before after ⟨.fileUpdated, path.path, none⟩
  | directoryCreated {path : CanonicalPath} (hb : before path = none)
      (ha : after path = some .directory) :
      Records before after ⟨.directoryCreated, path.path, none⟩
  | fileDeleted {path : CanonicalPath} {content : String} (hb : before path = some (.file content))
      (ha : after path = none) : Records before after ⟨.fileDeleted, path.path, none⟩
  | directoryDeleted {path : CanonicalPath} (hb : before path = some .directory)
      (ha : after path = none) : Records before after ⟨.directoryDeleted, path.path, none⟩
  | renamed {source target : CanonicalPath} {entry : Entry} (hs : before source = some entry)
      (ht : before target = none) (hs' : after source = none) (ht' : after target = some entry) :
      Records before after ⟨.renamed, target.path, some source.path⟩

variable {tree tree' : FlatTree} {command : Command}

theorem record?_of_parse {raw : String} {path : CanonicalPath}
    (hp : Path.parse raw = .ok path.path) (kind : ChangeKind) :
    record? kind raw = some ⟨kind, path.path, none⟩ := by
  rw [record?, CanonicalPath.parse?_eq_some_iff.mpr hp]
  rfl

theorem announcement?_createFile (tree : FlatTree) {raw : String} (content : String)
    {path : CanonicalPath} (hp : Path.parse raw = .ok path.path) :
    tree.announcement? (.createFile raw content) =
      if tree path = none then some ⟨.fileCreated, path.path, none⟩
      else some ⟨.fileUpdated, path.path, none⟩ := by
  rw [announcement?, CanonicalPath.parse?_eq_some_iff.mpr hp, record?_of_parse hp,
    record?_of_parse hp]
  rfl

theorem announcement?_createDirectory (tree : FlatTree) {raw : String} {path : CanonicalPath}
    (hp : Path.parse raw = .ok path.path) :
    tree.announcement? (.createDirectory raw) =
      if tree path = some .directory then none
      else some ⟨.directoryCreated, path.path, none⟩ := by
  rw [announcement?, CanonicalPath.parse?_eq_some_iff.mpr hp, record?_of_parse hp]
  rfl

theorem announcement?_rename (tree : FlatTree) {rawSource rawTarget : String}
    {source target : CanonicalPath} (hs : Path.parse rawSource = .ok source.path)
    (ht : Path.parse rawTarget = .ok target.path) :
    tree.announcement? (.rename rawSource rawTarget) =
      if source = target then none else some ⟨.renamed, target.path, some source.path⟩ := by
  rw [announcement?, CanonicalPath.parse?_eq_some_iff.mpr hs,
    CanonicalPath.parse?_eq_some_iff.mpr ht]
  rfl

theorem write_self (tree : FlatTree) (path : CanonicalPath) (content : String) :
    tree.write path content path = some (.file content) :=
  if_pos rfl

theorem put_self (tree : FlatTree) (path : CanonicalPath) (entry : Entry) :
    tree.put path entry path = some entry :=
  if_pos rfl

theorem Moved.target_eq {source target : CanonicalPath} (h : tree.Moved source target tree') :
    tree' target = tree source := by
  refine h.carried source target ?_
  rw [Path.rebase?_eq_some_iff source.canonical source.canonical target.canonical]
  exact ⟨[], (List.append_nil _).symm, (List.append_nil _).symm⟩

/-- A step has a record that tells what it did, unless there was nothing to do. -/
theorem Step.records (hs : tree.Step command tree') :
    (tree.Idle command ∧ tree.announcement? command = none) ∨
      (¬ tree.Idle command ∧
        ∃ change, tree.announcement? command = some change ∧ tree.Records tree' change) := by
  cases hs with
  | @createFile raw content path hp hn ho =>
    have hrecord := (announcement?_createFile tree content hp).trans (if_pos hn)
    exact .inr ⟨nofun, _, hrecord, .fileCreated hn (put_self ..)⟩
  | @replaceFile raw content old path hp hf =>
    have hne : tree path ≠ none := fun hn => nomatch hn.symm.trans hf
    have hrecord := (announcement?_createFile tree content hp).trans (if_neg hne)
    exact .inr ⟨nofun, _, hrecord, .fileUpdated hf (write_self ..)⟩
  | updateFile hp hf =>
    exact .inr ⟨nofun, _, record?_of_parse hp _, .fileUpdated hf (write_self ..)⟩
  | @createDirectory raw path hp hn ho =>
    have hnone : tree path ≠ some .directory := fun hd => nomatch hn.symm.trans hd
    have hrecord := (announcement?_createDirectory tree hp).trans (if_neg hnone)
    refine .inr ⟨fun hi => ?_, _, hrecord, .directoryCreated hn (put_self ..)⟩
    cases hi with
    | keepDirectory hp' hd =>
      obtain rfl := CanonicalPath.ext_path (Except.ok.inj (hp'.symm.trans hp))
      exact hnone hd
  | keepDirectory hp hd =>
    exact .inl ⟨.keepDirectory hp hd, (announcement?_createDirectory tree hp).trans (if_pos hd)⟩
  | replaceInFile hp hf hne ho =>
    exact .inr ⟨nofun, _, record?_of_parse hp _, .fileUpdated hf (write_self ..)⟩
  | insertInFile hp hf hne hfree hj hl =>
    exact .inr ⟨nofun, _, record?_of_parse hp _, .fileUpdated hf (write_self ..)⟩
  | deleteFile hp hf =>
    exact .inr ⟨nofun, _, record?_of_parse hp _, .fileDeleted hf (if_pos rfl)⟩
  | deleteDirectory hp hr hd =>
    exact .inr ⟨nofun, _, record?_of_parse hp _, .directoryDeleted hd (if_pos (.refl _))⟩
  | @rename _ _ source target entry _ hps hpt hrs hrt hn hw hf ho hm =>
    have hne : source ≠ target := by
      rintro rfl
      exact nomatch hf.symm.trans hn
    have hrecord := (announcement?_rename tree hps hpt).trans (if_neg hne)
    have hvacated := hm.vacated source (.refl source)
    refine .inr ⟨fun hi => ?_, _, hrecord, .renamed hn hf hvacated (hm.target_eq.trans hn)⟩
    cases hi with
    | keepPlace hps' hpt' =>
      have hsame := (hps.symm.trans hps').trans (hpt'.symm.trans hpt)
      exact hne (CanonicalPath.ext_path (Except.ok.inj hsame))
  | keepPlace hps hpt hr hn =>
    exact .inl ⟨.keepPlace hps hpt, (announcement?_rename tree hps hpt).trans (if_pos rfl)⟩

end FlatTree

/-! ### Receivers -/

/-- What can happen to a store and its receivers. -/
inductive StoreEvent where
  | attempt (command : Command)
  | subscribe
  | unsubscribe (receiver : Nat)
  | receive (receiver : Nat)
  | drain (receiver : Nat)
deriving DecidableEq, Repr

namespace Store

def step (store : Store) : StoreEvent → Store
  | .attempt command => store.attempt command
  | .subscribe => store.subscribe
  | .unsubscribe receiver => { store with changes := store.changes.unsubscribe receiver }
  | .receive receiver => { store with changes := store.changes.receive receiver }
  | .drain receiver => { store with changes := store.changes.drain receiver }

def run (store : Store) (events : List StoreEvent) : Store := events.foldl step store

/-- What comes of each event, given what comes of one. -/
def collect {α : Type} (output : Store → StoreEvent → List α) (store : Store) :
    List StoreEvent → List α
  | [] => []
  | event :: rest => output store event ++ (store.step event).collect output rest

/-- The changes that wait for the receiver. -/
def pending (store : Store) (receiver : Nat) : List Change :=
  ((store.changes.mailbox? receiver).map (·.pending)).getD []

/-- The changes that the receiver takes out of its mailbox. -/
def taken (receiver : Nat) (store : Store) : StoreEvent → List Change
  | .receive taker => if receiver = taker then (store.pending receiver).take 1 else []
  | .drain taker => if receiver = taker then store.pending receiver else []
  | _ => []

/-- The record of a command, if it succeeds. -/
def announced (store : Store) : StoreEvent → List Change
  | .attempt command =>
    match command.apply store with
    | .ok _ _ => (store.flat.announcement? command).toList
    | .error _ _ => []
  | _ => []

variable {store store' : Store} {command : Command} {receiver : Nat} {mailbox : Mailbox Change}

/-- A command that succeeds makes its record known. One that has none leaves the store as it is. -/
theorem Step.announces (hs : store.Step command store') :
    (store.flat.announcement? command = none ∧ store' = store) ∨
      ∃ root change, store.flat.announcement? command = some change ∧
        store' = ({ store with root } : Store).announce change := by
  cases hs with
  | @createFile raw content path hp hn hu =>
    obtain ⟨path, rfl⟩ := CanonicalPath.exists_of_parse hp
    have hrecord := store.flat.announcement?_createFile content hp
    exact .inr ⟨_, _, hrecord.trans (if_pos (flat_eq_none_iff.mpr hn)), rfl⟩
  | @replaceFile raw content old path stored hp hf =>
    obtain ⟨path, rfl⟩ := CanonicalPath.exists_of_parse hp
    have hne : store.flat path ≠ none := fun hn => nomatch (flat_eq_none_iff.mp hn).symm.trans hf
    have hrecord := store.flat.announcement?_createFile content hp
    exact .inr ⟨_, _, hrecord.trans (if_neg hne), rfl⟩
  | updateFile hp hf =>
    obtain ⟨path, rfl⟩ := CanonicalPath.exists_of_parse hp
    exact .inr ⟨_, _, FlatTree.record?_of_parse hp _, rfl⟩
  | createDirectory hp hn hu =>
    obtain ⟨path, rfl⟩ := CanonicalPath.exists_of_parse hp
    have hne : store.flat path ≠ some .directory :=
      fun hd => nomatch (flat_eq_none_iff.mpr hn).symm.trans hd
    have hrecord := store.flat.announcement?_createDirectory hp
    exact .inr ⟨_, _, hrecord.trans (if_neg hne), rfl⟩
  | keepDirectory hp hd =>
    obtain ⟨path, rfl⟩ := CanonicalPath.exists_of_parse hp
    have hdirectory := flat_eq_directory_iff.mpr ⟨_, _, hd⟩
    exact .inl ⟨(store.flat.announcement?_createDirectory hp).trans (if_pos hdirectory), rfl⟩
  | replaceInFile hp hf hne ho =>
    obtain ⟨path, rfl⟩ := CanonicalPath.exists_of_parse hp
    exact .inr ⟨_, _, FlatTree.record?_of_parse hp _, rfl⟩
  | insertInFile hp hf hl =>
    obtain ⟨path, rfl⟩ := CanonicalPath.exists_of_parse hp
    exact .inr ⟨_, _, FlatTree.record?_of_parse hp _, rfl⟩
  | deleteFile hp hf =>
    obtain ⟨path, rfl⟩ := CanonicalPath.exists_of_parse hp
    exact .inr ⟨_, _, FlatTree.record?_of_parse hp _, rfl⟩
  | deleteDirectory hp hr hd =>
    obtain ⟨path, rfl⟩ := CanonicalPath.exists_of_parse hp
    exact .inr ⟨_, _, FlatTree.record?_of_parse hp _, rfl⟩
  | rename hps hpt hrs hrt hn hw hf hu =>
    obtain ⟨source, rfl⟩ := CanonicalPath.exists_of_parse hps
    obtain ⟨target, rfl⟩ := CanonicalPath.exists_of_parse hpt
    have hne : source ≠ target := by
      rintro rfl
      exact nomatch hf.symm.trans hn
    exact .inr ⟨_, _, (store.flat.announcement?_rename hps hpt).trans (if_neg hne), rfl⟩
  | keepPlace hps hpt hr hn =>
    obtain ⟨path, rfl⟩ := CanonicalPath.exists_of_parse hps
    exact .inl ⟨(store.flat.announcement?_rename hps hpt).trans (if_pos rfl), rfl⟩

/-- The mailbox of a receiver through one event: what is taken and what waits afterwards is what
waited before and what is announced. -/
theorem mailbox?_step (hm : store.changes.mailbox? receiver = some mailbox)
    (ha : mailbox.attached = true) {event : StoreEvent} (hk : event ≠ .unsubscribe receiver) :
    ∃ mailbox', (store.step event).changes.mailbox? receiver = some mailbox' ∧
      mailbox'.attached = true ∧
      taken receiver store event ++ mailbox'.pending = mailbox.pending ++ announced store event := by
  have hpending : store.pending receiver = mailbox.pending := by
    rw [pending, hm]
    rfl
  cases event with
  | attempt command =>
    rw [step, announced]
    rcases command.apply_cases store with ⟨next, happly, hs⟩ | ⟨cause, happly⟩
    · rw [attempt_of_ok happly, happly]
      rcases hs.announces with ⟨hnone, rfl⟩ | ⟨root, change, hsome, rfl⟩
      · rw [hnone]
        exact ⟨mailbox, hm, ha, (List.append_nil _).symm⟩
      · rw [hsome]
        refine ⟨{ mailbox with pending := mailbox.pending ++ [change] }, ?_, ha, rfl⟩
        change (store.changes.publish change).mailbox? receiver = _
        rw [Broadcast.mailbox?_publish, hm, Option.map_some, if_pos ha]
    · rw [attempt_of_error happly, happly]
      exact ⟨mailbox, hm, ha, (List.append_nil _).symm⟩
  | subscribe =>
    refine ⟨mailbox, ?_, ha, (List.append_nil _).symm⟩
    change (store.changes.subscribe []).mailbox? receiver = _
    have hlt := Broadcast.lt_next_of_mailbox? hm
    rw [Broadcast.mailbox?_subscribe, if_neg (Nat.ne_of_lt hlt), hm]
  | unsubscribe dropped =>
    refine ⟨mailbox, ?_, ha, (List.append_nil _).symm⟩
    change (store.changes.unsubscribe dropped).mailbox? receiver = _
    rw [Broadcast.mailbox?_unsubscribe, if_neg fun he => hk (congrArg _ he.symm), hm]
  | receive taker =>
    change ∃ mailbox', (store.changes.receive taker).mailbox? receiver = some mailbox' ∧
      mailbox'.attached = true ∧ _ ++ mailbox'.pending = mailbox.pending ++ []
    rw [taken, List.append_nil, Broadcast.receive, Broadcast.mailbox?_modify, hm, hpending]
    split
    · refine ⟨{ mailbox with pending := mailbox.pending.tail }, rfl, ha, ?_⟩
      rw [← List.drop_one, List.take_append_drop]
    · exact ⟨mailbox, rfl, ha, rfl⟩
  | drain taker =>
    change ∃ mailbox', (store.changes.drain taker).mailbox? receiver = some mailbox' ∧
      mailbox'.attached = true ∧ _ ++ mailbox'.pending = mailbox.pending ++ []
    rw [taken, List.append_nil, Broadcast.drain, Broadcast.mailbox?_modify, hm, hpending]
    split
    · exact ⟨{ mailbox with pending := [] }, rfl, ha, List.append_nil _⟩
    · exact ⟨mailbox, rfl, ha, rfl⟩

/-- The mailbox of a receiver that is not dropped, through any events. -/
theorem mailbox?_run (hm : store.changes.mailbox? receiver = some mailbox)
    (ha : mailbox.attached = true) {events : List StoreEvent}
    (hk : StoreEvent.unsubscribe receiver ∉ events) :
    ∃ mailbox', (store.run events).changes.mailbox? receiver = some mailbox' ∧
      store.collect (taken receiver) events ++ mailbox'.pending =
        mailbox.pending ++ store.collect announced events := by
  induction events generalizing store mailbox with
  | nil => exact ⟨mailbox, hm, (List.append_nil _).symm⟩
  | cons event rest ih =>
    obtain ⟨hne, hrest⟩ := not_or.mp fun h => hk (List.mem_cons.mpr h)
    obtain ⟨next, hnext, hattached, hstep⟩ := mailbox?_step hm ha fun he => hne he.symm
    obtain ⟨last, hlast, hrun⟩ := ih hnext hattached hrest
    refine ⟨last, hlast, ?_⟩
    rw [collect, collect, List.append_assoc, hrun, ← List.append_assoc, hstep, List.append_assoc]

/-- Whatever happens to a store and its other receivers, what a receiver that is not dropped has
taken and what waits for it are the records of the commands that succeeded since it subscribed, in
order. A command that succeeds has no record exactly when it asks for what is there, and then it
leaves the store as it is; any other one has a record that tells what became of its path. -/
theorem Reachable.announcements_complete (h : store.Reachable) :
    (∀ events, StoreEvent.unsubscribe store.changes.next ∉ events →
        store.subscribe.collect (taken store.changes.next) events ++
            (store.subscribe.run events).pending store.changes.next =
          store.subscribe.collect announced events) ∧
      ∀ command next, command.apply store = .ok () next →
        (store.flat.Idle command ∧ store.flat.announcement? command = none ∧ next = store) ∨
          (¬ store.flat.Idle command ∧ ∃ change,
            store.flat.announcement? command = some change ∧
              store.flat.Records next.flat change) := by
  constructor
  · intro events hk
    have hm : store.subscribe.changes.mailbox? store.changes.next = some { pending := [] } :=
      (Broadcast.mailbox?_subscribe store.changes [] _).trans (if_pos rfl)
    obtain ⟨mailbox, hmailbox, hall⟩ := mailbox?_run hm rfl hk
    rw [pending, hmailbox]
    exact hall
  · intro command next happly
    have hstep := Command.step_of_apply happly
    rcases (hstep.flat h.wellFormed).records with ⟨hidle, hnone⟩ | hrecords
    · rcases hstep.announces with ⟨-, hsame⟩ | ⟨_, change, hsome, -⟩
      · exact .inl ⟨hidle, hnone, hsame⟩
      · exact nomatch hnone.symm.trans hsome
    · exact .inr hrecords

/-- A second receiver comes and goes; a command that fails and two that ask for what is there go
unrecorded. -/
theorem announcements_complete_beside_other :
    let store := Store.empty.attempt (.createFile "/a/b" "x")
    let events : List StoreEvent :=
      [.attempt (.createDirectory "/a"), .subscribe, .attempt (.createFile "/a/./b" "y"),
        .receive 0, .unsubscribe 1, .attempt (.deleteFile "/c"), .attempt (.rename "/a" "/d/e"),
        .attempt (.rename "/d" "/d/"), .attempt (.createFile "/a" "")]
    store.Reachable ∧ StoreEvent.unsubscribe store.changes.next ∉ events ∧
      store.subscribe.collect (taken 0) events ++ (store.subscribe.run events).pending 0 =
        [⟨.fileUpdated, ⟨["a", "b"]⟩, none⟩, ⟨.renamed, ⟨["d", "e"]⟩, some ⟨["a"]⟩⟩,
          ⟨.fileCreated, ⟨["a"]⟩, none⟩] ∧
      ∃ change, store.flat.announcement? (.deleteDirectory "/a") = some change ∧
        store.flat.Records (store.attempt (.deleteDirectory "/a")).flat change := by
  intro store events
  have hs : store.Reachable := .attempted _ .empty
  obtain ⟨hreceived, hcommands⟩ := hs.announcements_complete
  have hkept : StoreEvent.unsubscribe store.changes.next ∉ events := by decide +kernel
  refine ⟨hs, hkept, (hreceived events hkept).trans (by decide +kernel), ?_⟩
  rcases hcommands (.deleteDirectory "/a") _ rfl with ⟨hidle, -⟩ | ⟨-, hrecord⟩
  · cases hidle
  · exact hrecord

end Store

end LivePreview
