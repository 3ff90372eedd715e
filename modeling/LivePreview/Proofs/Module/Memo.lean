import Mathlib.Data.List.Nodup
import LivePreview.Module.Graph
import LivePreview.Proofs.Module.Draft

/-!
# Soundness of the memo

`Memo.Step` says what completing a draft does, and `Memo.Advances` what a run over drafts does. A memo
is sound for some drafts when each entry is the result of one of them. Completing one of these drafts
with a sound memo gives what its check gives, and leaves the memo sound; and so through whole builds,
whatever was met in between and whatever was forgotten.
-/
namespace LivePreview

/-- Every entry is the result of a known draft with that key. -/
def Memo.Sound (known : Draft → Prop) (memo : Memo) : Prop :=
  ∀ key code, (key, code) ∈ memo.entries → ∃ draft dialect linked,
    known draft ∧ draft.body = .script dialect key linked ∧ draft.output = .ok code

/-- Known drafts with the same key have the same linked text. -/
def KeysAgree (known : Draft → Prop) : Prop :=
  ∀ a b, known a → known b → ∀ key dialect dialect' linked linked',
    a.body = .script dialect key linked → b.body = .script dialect' key linked' →
      dialect = dialect' ∧ linked = linked'

theorem checkScript_eq_ok_iff {path : Path} {dialect : Source.Dialect} {linked code : String} :
    checkScript path dialect linked = .ok code ↔
      code = linked ∧ Source.firstFault? linked dialect = none := by
  rw [checkScript]
  cases hf : Source.firstFault? linked dialect with
  | none => simp [eq_comm]
  | some fault => simp

theorem checkScript_eq_error_iff {path : Path} {dialect : Source.Dialect} {linked : String}
    {error : ModuleError} :
    checkScript path dialect linked = .error error ↔
      ∃ fault, Source.firstFault? linked dialect = some fault ∧
        error = .malformed path (.script fault) := by
  rw [checkScript]
  cases hf : Source.firstFault? linked dialect with
  | none => simp
  | some fault => simp [eq_comm]

/-- Only an error tells where a script stands. -/
theorem checkScript_ok_of_path {path : Path} {dialect : Source.Dialect} {linked code : String}
    (h : checkScript path dialect linked = .ok code) (other : Path) :
    checkScript other dialect linked = .ok code :=
  checkScript_eq_ok_iff.mpr (checkScript_eq_ok_iff.mp h)

/-- A script whose imports can be resolved is checked once it is linked. -/
theorem Config.IsScript.output_eq {config : Config} {store : Store} {path : Path}
    {dialect : Source.Dialect} {content : String} (h : config.IsScript store path dialect content) :
    (Draft.ofPath config store path).output = checkScript path dialect (Text.applyEdits content
      ((config.scriptLinks store path dialect content).map (Link.edit config content))) := by
  have hpath : (Draft.ofPath config store path).path = path := by
    rw [Draft.ofPath, h.read, h.kind]
    rfl
  rw [Draft.output, h.body_eq, hpath]

/-- A script that cannot be linked has the error of its first import at fault. -/
theorem Draft.output_of_unresolved {config : Config} {store : Store} {path : Path}
    {dialect : Source.Dialect} {content : String} {site : Source.ImportSite}
    (hk : ModuleKind.ofPath config path = .script dialect)
    (hr : store.read path.text = .ok content)
    (hu : config.firstUnresolved? store path (Source.importSites content dialect) = some site) :
    (ofPath config store path).output =
      .error (.unresolved path ⟨site.specifier, path⟩ (site.location content)) := by
  rw [output, ofPath, hr, hk]
  dsimp only [ofScript]
  rw [hu]

/-- A script that can be read is checked once all its imports are resolved. -/
theorem Draft.output_of_script {config : Config} {store : Store} {path : Path}
    {dialect : Source.Dialect} {content : String}
    (hk : ModuleKind.ofPath config path = .script dialect)
    (hr : store.read path.text = .ok content) :
    (∃ cause location, (ofPath config store path).output = .error (.unresolved path cause location)) ∨
      config.IsScript store path dialect content ∧
        (ofPath config store path).output = checkScript path dialect (Text.applyEdits content
          ((config.scriptLinks store path dialect content).map (Link.edit config content))) := by
  cases hu : config.firstUnresolved? store path (Source.importSites content dialect) with
  | some site => exact .inl ⟨_, _, output_of_unresolved hk hr hu⟩
  | none =>
    have h : config.IsScript store path dialect content := ⟨hk, hr, hu⟩
    exact .inr ⟨h, h.output_eq⟩

theorem Draft.output_of_missing {config : Config} {store : Store} {path : Path}
    {cause : StoreError} (hr : store.read path.text = .error cause) :
    (ofPath config store path).output = .error (.missing path) := by
  rw [output, ofPath, hr]

/-- A draft without its memo. -/
def Draft.complete (draft : Draft) : Module := draft.withOutput draft.output

/-! ### One draft -/

/-- The key under which the result of a draft is remembered, if anything is left to do. -/
def Draft.key? (draft : Draft) : Option MemoKey :=
  match draft.body with
  | .script _ key _ => some key
  | .done _ => none

theorem Draft.exists_body_of_key? {draft : Draft} {key : MemoKey} (h : draft.key? = some key) :
    ∃ dialect linked, draft.body = .script dialect key linked := by
  rw [key?] at h
  split at h
  · rename_i dialect found linked hb
    obtain rfl := Option.some.inj h
    exact ⟨dialect, linked, hb⟩
  · cases h

theorem Draft.key?_of_script {draft : Draft} {dialect : Source.Dialect} {key : MemoKey}
    {linked : String} (h : draft.body = .script dialect key linked) : draft.key? = some key := by
  rw [key?, h]

theorem Draft.key?_of_done {draft : Draft} {output : Except ModuleError String}
    (h : draft.body = .done output) : draft.key? = none := by
  rw [key?, h]

/-- Where keys tell the drafts, a script passes if another with its key does. -/
theorem KeysAgree.output_eq {known : Draft → Prop} (ha : KeysAgree known) {draft other : Draft}
    (hd : known draft) (hd' : known other) {key : MemoKey} (hk : draft.key? = some key)
    (hk' : other.key? = some key) {code : String} (ho : other.output = .ok code) :
    draft.output = .ok code := by
  obtain ⟨dialect, linked, hb⟩ := Draft.exists_body_of_key? hk
  obtain ⟨dialect', linked', hb'⟩ := Draft.exists_body_of_key? hk'
  obtain ⟨rfl, rfl⟩ := ha draft other hd hd' key _ _ _ _ hb hb'
  rw [Draft.output, hb'] at ho
  rw [Draft.output, hb]
  exact checkScript_ok_of_path ho draft.path

namespace Memo

/-- What completing a draft does. -/
inductive Step (memo : Memo) (draft : Draft) : Memo → Module → Prop
  | done {output : Except ModuleError String} (hb : draft.body = .done output) :
      Step memo draft memo (draft.withOutput output)
  | hit {key : MemoKey} {code : String} (hk : draft.key? = some key)
      (hg : Table.get? key memo.entries = some code) :
      Step memo draft { memo with used := memo.used.insert key, hits := memo.hits + 1 }
        (draft.withOutput (.ok code))
  | passed {key : MemoKey} {code : String} (hk : draft.key? = some key)
      (hg : Table.get? key memo.entries = none) (ho : draft.output = .ok code) :
      Step memo draft
        { memo with
          used := memo.used.insert key
          misses := memo.misses + 1
          entries := memo.entries ++ [(key, code)] }
        (draft.withOutput (.ok code))
  | failed {key : MemoKey} {error : ModuleError} (hk : draft.key? = some key)
      (hg : Table.get? key memo.entries = none) (ho : draft.output = .error error) :
      Step memo draft { memo with used := memo.used.insert key, misses := memo.misses + 1 }
        (draft.withOutput (.error error))

theorem step_complete (memo : Memo) (draft : Draft) :
    Step memo draft (memo.complete draft).1 (memo.complete draft).2 := by
  rw [complete]
  cases hb : draft.body with
  | done output => exact .done hb
  | script dialect key linked =>
    have hk := Draft.key?_of_script hb
    have ho : draft.output = checkScript draft.path dialect linked := by rw [Draft.output, hb]
    dsimp only
    cases hg : Table.get? key memo.entries with
    | some code => exact .hit hk hg
    | none =>
      dsimp only
      cases hc : checkScript draft.path dialect linked with
      | ok code => exact .passed hk hg (ho.trans hc)
      | error error => exact .failed hk hg (ho.trans hc)

/-- A memo holds code and no errors, so an error is always that of the draft. -/
theorem output_of_error {memo : Memo} {draft : Draft} {error : ModuleError}
    (h : (memo.complete draft).2.output = .error error) : draft.output = .error error := by
  have hstep := step_complete memo draft
  generalize (memo.complete draft).1 = next, (memo.complete draft).2 = m at *
  cases hstep with
  | done hb =>
    rw [Draft.output, hb]
    exact h
  | failed _ _ ho => exact ho.trans h
  | hit _ _ => cases h
  | passed _ _ _ => cases h

/-! ### All drafts -/

variable {memo next last : Memo} {draft : Draft} {drafts others : List Draft} {m : Module}

/-- The keys of what is remembered. -/
def keys (memo : Memo) : List MemoKey := memo.entries.map Prod.fst

/-- What completing drafts does to the memo. -/
structure Advances (memo : Memo) (drafts : List Draft) (next : Memo) : Prop where
  entries : memo.entries <+: next.entries
  used : ∀ key, key ∈ next.used ↔ key ∈ memo.used ∨ ∃ draft ∈ drafts, draft.key? = some key
  count : next.hits + next.misses =
    memo.hits + memo.misses + drafts.countP (·.key?.isSome)
  /-- Only scripts that passed add an entry. -/
  added : ∀ key ∈ next.keys, key ∈ memo.keys ∨
    ∃ draft ∈ drafts, draft.key? = some key ∧ ∃ code, draft.output = .ok code
  nodup : memo.keys.Nodup → next.keys.Nodup

theorem Advances.refl (memo : Memo) : memo.Advances [] memo where
  entries := List.prefix_rfl
  used := by simp
  count := by simp
  added := fun _ hm => .inl hm
  nodup := id

theorem Advances.trans (h : memo.Advances drafts next) (h' : next.Advances others last) :
    memo.Advances (drafts ++ others) last where
  entries := h.entries.trans h'.entries
  used key := by
    rw [h'.used, h.used]
    simp only [List.mem_append, or_and_right, exists_or, or_assoc]
  count := by
    rw [h'.count, h.count, List.countP_append]
    omega
  added key hm := by
    rcases h'.added key hm with hm | ⟨draft, hd, hkey⟩
    · exact (h.added key hm).imp_right fun ⟨draft, hd, hkey⟩ =>
        ⟨draft, List.mem_append_left others hd, hkey⟩
    · exact .inr ⟨draft, List.mem_append_right drafts hd, hkey⟩
  nodup hn := h'.nodup (h.nodup hn)

theorem Step.advances (h : memo.Step draft next m) : memo.Advances [draft] next := by
  have hused : ∀ {key : MemoKey}, draft.key? = some key → ∀ other,
      other ∈ memo.used.insert key ↔
        other ∈ memo.used ∨ ∃ found ∈ [draft], found.key? = some other := by
    intro key hk other
    simp [List.mem_insert_iff, hk, or_comm, eq_comm]
  have hone : ∀ {key : MemoKey}, draft.key? = some key → [draft].countP (·.key?.isSome) = 1 := by
    intro key hk
    simp [hk]
  cases h with
  | done hb =>
    have hk := Draft.key?_of_done hb
    exact ⟨List.prefix_rfl, by simp [hk], by simp [hk], fun _ hm => .inl hm, id⟩
  | hit hk hg =>
    refine ⟨List.prefix_rfl, hused hk, ?_, fun _ hm => .inl hm, id⟩
    rw [hone hk, Nat.add_right_comm]
  | failed hk hg ho =>
    refine ⟨List.prefix_rfl, hused hk, ?_, fun _ hm => .inl hm, id⟩
    rw [hone hk, Nat.add_assoc]
  | @passed key code hk hg ho =>
    -- An entry is only added where the key was looked up in vain.
    have hnew : key ∉ memo.keys :=
      Table.contains_eq_false_iff.mp (Option.isSome_eq_false_iff.mpr (hg ▸ rfl))
    refine ⟨List.prefix_append _ _, hused hk, ?_, fun other hm => ?_, fun hn => ?_⟩
    · rw [hone hk, Nat.add_assoc]
    · rw [keys, List.map_append] at hm
      refine (List.mem_append.mp hm).imp_right fun hm => ?_
      obtain rfl := List.mem_singleton.mp hm
      exact ⟨draft, List.mem_singleton_self draft, hk, code, ho⟩
    · rw [keys, List.map_append]
      refine List.nodup_append.mpr ⟨hn, List.nodup_singleton key, fun _ ha _ hb he => ?_⟩
      obtain rfl := List.mem_singleton.mp hb
      subst he
      exact hnew ha

theorem advances_completeAll (memo : Memo) (drafts : List Draft) :
    memo.Advances drafts (memo.completeAll drafts).1 := by
  induction drafts generalizing memo with
  | nil => exact .refl memo
  | cons draft rest ih => exact (step_complete memo draft).advances.trans (ih _)

theorem get?_of_prefix {key : MemoKey} {code : String} (h : memo.entries <+: next.entries)
    (hg : Table.get? key memo.entries = some code) : Table.get? key next.entries = some code := by
  obtain ⟨added, h⟩ := h
  rw [← h, Table.get?_append, hg]
  rfl

theorem mem_keys_iff {key : MemoKey} :
    key ∈ memo.keys ↔ ∃ code, Table.get? key memo.entries = some code :=
  Table.contains_iff.symm.trans Option.isSome_iff_exists

/-- Each module is that of a draft, from the memo that the run had reached. -/
theorem exists_complete_of_mem (h : m ∈ (memo.completeAll drafts).2) :
    ∃ draft ∈ drafts, ∃ reached : Memo, (reached.complete draft).2 = m ∧
      memo.entries <+: reached.entries ∧
      (reached.complete draft).1.entries <+: (memo.completeAll drafts).1.entries := by
  induction drafts generalizing memo with
  | nil => cases h
  | cons draft rest ih =>
    have hfirst := (step_complete memo draft).advances
    have hrest := advances_completeAll (memo.complete draft).1 rest
    rcases List.mem_cons.mp h with rfl | h
    · exact ⟨draft, List.mem_cons_self, memo, rfl, List.prefix_rfl, hrest.entries⟩
    · obtain ⟨other, hm, reached, hmodule, hentries, hlast⟩ := ih h
      exact ⟨other, List.mem_cons_of_mem _ hm, reached, hmodule, hfirst.entries.trans hentries,
        hlast⟩

end Memo

/-! ### Sound memos -/

namespace Memo.Sound

variable {known : Draft → Prop} {memo : Memo}

theorem empty (known : Draft → Prop) : Sound known {} := fun _ _ h => nomatch h

theorem startBuild (h : memo.Sound known) : memo.startBuild.Sound known := h

theorem finishBuild (h : memo.Sound known) : memo.finishBuild.Sound known :=
  fun key code hm => h key code (List.mem_filter.mp hm).1

/-- What a sound memo answers for a known draft is what its check would answer. -/
theorem output_eq (h : memo.Sound known) (ha : KeysAgree known) {draft : Draft}
    (hd : known draft) {key : MemoKey} {code : String} (hk : draft.key? = some key)
    (hg : Table.get? key memo.entries = some code) : draft.output = .ok code := by
  obtain ⟨other, dialect, linked, hother, hb, ho⟩ := h key code (Table.mem_of_get?_eq_some hg)
  exact ha.output_eq hd hother hk (Draft.key?_of_script hb) ho

theorem complete (h : memo.Sound known) (ha : KeysAgree known) {draft : Draft}
    (hd : known draft) :
    (memo.complete draft).1.Sound known ∧ (memo.complete draft).2 = draft.complete := by
  have hstep := step_complete memo draft
  generalize (memo.complete draft).1 = next, (memo.complete draft).2 = m at *
  cases hstep with
  | done hb =>
    refine ⟨h, ?_⟩
    rw [Draft.complete, Draft.output, hb]
  | hit hk hg =>
    refine ⟨h, ?_⟩
    rw [Draft.complete, h.output_eq ha hd hk hg]
  | failed hk hg ho =>
    refine ⟨h, ?_⟩
    rw [Draft.complete, ho]
  | passed hk hg ho =>
    refine ⟨fun key code hm => ?_, by rw [Draft.complete, ho]⟩
    rcases List.mem_append.mp hm with hm | hm
    · exact h key code hm
    · obtain ⟨rfl, rfl⟩ := Prod.mk.inj (List.mem_singleton.mp hm)
      obtain ⟨dialect, linked, hb⟩ := Draft.exists_body_of_key? hk
      exact ⟨draft, dialect, linked, hd, hb, ho⟩

theorem completeAll (ha : KeysAgree known) {drafts : List Draft}
    (hk : ∀ draft ∈ drafts, known draft) (h : memo.Sound known) :
    (memo.completeAll drafts).1.Sound known ∧
      (memo.completeAll drafts).2 = drafts.map Draft.complete := by
  induction drafts generalizing memo with
  | nil => exact ⟨h, rfl⟩
  | cons draft rest ih =>
    obtain ⟨hdraft, hrest⟩ := List.forall_mem_cons.mp hk
    obtain ⟨hfirst, hmodule⟩ := h.complete ha hdraft
    obtain ⟨hlast, hmodules⟩ := ih hrest hfirst
    refine ⟨hlast, ?_⟩
    rw [Memo.completeAll, List.map_cons]
    dsimp only
    rw [hmodule, hmodules]

end Memo.Sound

/-! ### Without entries -/

/-- Without entries a memo answers what the check answers. -/
theorem Memo.transform_empty (config : Config) (store : Store) (path : Path) :
    (transform {} config store path).2 = (Draft.ofPath config store path).complete := by
  refine ((Memo.Sound.empty (· = Draft.ofPath config store path)).complete ?_ rfl).2
  -- Only one draft is known, so its key tells it.
  rintro a b rfl rfl key dialect dialect' linked linked' hb hb'
  rw [hb] at hb'
  obtain ⟨hdialect, -, hlinked⟩ := DraftBody.script.inj hb'
  exact ⟨hdialect, hlinked⟩

/-- Scripts of one dialect with the same content, in whatever trees and at whatever paths, have the
same result if their imports become the same: the same code, or errors that differ in the path
alone. -/
theorem Memo.transform_agrees {config : Config} {store store' : Store} {path path' : Path}
    {dialect : Source.Dialect} {content : String} (hr : store.Reachable) (hr' : store'.Reachable)
    (h : config.IsScript store path dialect content)
    (h' : config.IsScript store' path' dialect content)
    (ht : importTargets (config.scriptLinks store path dialect content) =
      importTargets (config.scriptLinks store' path' dialect content)) :
    (∃ code, (transform {} config store path).2.output = .ok code ∧
      (transform {} config store' path').2.output = .ok code) ∨
    ∃ error error', (transform {} config store path).2.output = .error error ∧
      (transform {} config store' path').2.output = .error error' ∧
      error.detail = error'.detail ∧ error.location = error'.location := by
  have hlinked := h.edits_eq hr.wellFormed hr'.wellFormed h' ht
  have ho : (transform {} config store path).2.output = _ :=
    (congrArg Module.output (transform_empty config store path)).trans h.output_eq
  have ho' : (transform {} config store' path').2.output = _ :=
    (congrArg Module.output (transform_empty config store' path')).trans h'.output_eq
  rw [← hlinked] at ho'
  rw [checkScript] at ho ho'
  split at ho
  · rename_i fault hfault
    rw [hfault] at ho'
    exact .inr ⟨_, _, ho, ho', rfl, rfl⟩
  · rename_i hfault
    rw [hfault] at ho'
    exact .inl ⟨_, ho, ho'⟩

/-- A script with a bracket that is left open, and its copy in a tree with other files. -/
theorem Memo.transform_agrees_of_copy :
    let content := "import './a.css';\nimport b from './b';\nrun(b\n"
    let store := ((Store.empty.attempt (.createFile "/App.jsx" content)).attempt
      (.createFile "/a.css" "p { }")).attempt (.createFile "/b.js" "export default 1;\n")
    let store' := (store.attempt (.rename "/App.jsx" "/Copy.jsx")).attempt
      (.updateFile "/b.js" "export default 2;\n")
    let path : Path := ⟨["App.jsx"]⟩
    let path' : Path := ⟨["Copy.jsx"]⟩
    Config.IsScript {} store path .jsx content ∧ Config.IsScript {} store' path' .jsx content ∧
      importTargets (Config.scriptLinks {} store path .jsx content) =
        importTargets (Config.scriptLinks {} store' path' .jsx content) ∧
      ∃ error error', (transform {} {} store path).2.output = .error error ∧
        (transform {} {} store' path').2.output = .error error' ∧
        error.detail = error'.detail ∧ error.location = error'.location := by
  intro content store store' path path'
  have hr : store.Reachable := .attempted _ (.attempted _ (.attempted _ .empty))
  have hr' : store'.Reachable := .attempted _ (.attempted _ hr)
  have h : Config.IsScript {} store path .jsx content :=
    ⟨by decide +kernel, by decide +kernel, by decide +kernel⟩
  have h' : Config.IsScript {} store' path' .jsx content :=
    ⟨by decide +kernel, by decide +kernel, by decide +kernel⟩
  have ht : importTargets (Config.scriptLinks {} store path .jsx content) =
      importTargets (Config.scriptLinks {} store' path' .jsx content) := by decide +kernel
  refine ⟨h, h', ht, (Memo.transform_agrees hr hr' h h' ht).resolve_left ?_⟩
  rintro ⟨code, ho, -⟩
  have hfailed : (transform {} {} store path).2.isOk = false := by decide +kernel
  rw [Module.isOk, ho] at hfailed
  cases hfailed

end LivePreview
