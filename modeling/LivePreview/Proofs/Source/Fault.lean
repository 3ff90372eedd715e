import Mathlib.Data.List.Forall2
import Mathlib.Data.Option.Basic
import LivePreview.Proofs.Source.Settle

/-!
# Faults of two readers

A reader notes where it stands when a construct or a comment opens and when a bracket does not fit,
and nothing else that it notes has a location. So two readers that differ in where they are find the
same faults, each at its own locations.
-/
namespace LivePreview.Source

open LivePreview.Text

/-! ### The same fault elsewhere -/

/-- The defects differ in where the construct was opened at most. -/
inductive Defect.Moved (R : Location → Location → Prop) : Defect → Defect → Prop
  | mismatched {openedAt openedAt' : Location} (innermost : Construct) (found : Char)
      (h : R openedAt openedAt') :
      Moved R (.mismatched innermost openedAt found) (.mismatched innermost openedAt' found)
  | unexpected (found : Char) : Moved R (.unexpected found) (.unexpected found)
  | unterminatedComment : Moved R .unterminatedComment .unterminatedComment
  | unterminatedTemplate : Moved R .unterminatedTemplate .unterminatedTemplate
  | unclosed (innermost : Construct) : Moved R (.unclosed innermost) (.unclosed innermost)

/-- The same fault but for its locations. -/
structure Fault.Moved (R : Location → Location → Prop) (fault fault' : Fault) : Prop where
  defect : fault.defect.Moved R fault'.defect
  location : Option.Rel R fault.location fault'.location

theorem rel_mono {α β : Type} {R S : α → β → Prop} (hrs : ∀ a b, R a b → S a b) {x : Option α}
    {y : Option β} (h : Option.Rel R x y) : Option.Rel S x y := by
  cases h with
  | some h => exact .some (hrs _ _ h)
  | none => exact .none

theorem rel_or {α β : Type} {R : α → β → Prop} {x y : Option α} {x' y' : Option β}
    (hx : Option.Rel R x x') (hy : Option.Rel R y y') : Option.Rel R (x.or y) (x'.or y') := by
  cases hx with
  | some h => exact .some h
  | none => exact hy

section Moved

variable {R S : Location → Location → Prop}

theorem Defect.Moved.mono {defect defect' : Defect} (hrs : ∀ l l', R l l' → S l l')
    (h : defect.Moved R defect') : defect.Moved S defect' := by
  cases h with
  | mismatched innermost found h => exact .mismatched innermost found (hrs _ _ h)
  | unexpected found => exact .unexpected found
  | unterminatedComment => exact .unterminatedComment
  | unterminatedTemplate => exact .unterminatedTemplate
  | unclosed innermost => exact .unclosed innermost

theorem Fault.Moved.mono {fault fault' : Fault} (hrs : ∀ l l', R l l' → S l l')
    (h : fault.Moved R fault') : fault.Moved S fault' where
  defect := h.defect.mono hrs
  location := rel_mono hrs h.location

end Moved

/-- The construct ends at the bracket. -/
def Construct.fits (construct : Construct) (bracket : Bracket) : Bool :=
  construct.closer = bracket.closer

theorem eq_closer_of_ofCloser? {c : Char} {bracket : Bracket}
    (h : Bracket.ofCloser? c = some bracket) : c = bracket.closer := by
  rw [Bracket.ofCloser?] at h
  repeat' split at h
  case isFalse.isFalse.isFalse => cases h
  all_goals
    obtain rfl := Option.some.inj h
    assumption

theorem eq_opener_of_ofOpener? {c : Char} {bracket : Bracket}
    (h : Bracket.ofOpener? c = some bracket) : c = bracket.opener := by
  rw [Bracket.ofOpener?] at h
  repeat' split at h
  case isFalse.isFalse.isFalse => cases h
  all_goals
    obtain rfl := Option.some.inj h
    assumption

/-- The characters at which a construct or a comment opens or a bracket closes. -/
def landmarks : List Char := ['(', ')', '[', ']', '{', '}', '\x60', '$', '/']

theorem ne_break_of_mem_landmarks {c : Char} (h : c ∈ landmarks) : c ≠ '\n' := by
  rintro rfl
  exact absurd h (by decide)

theorem mem_landmarks_of_ofOpener? {c : Char} {bracket : Bracket}
    (h : Bracket.ofOpener? c = some bracket) : c ∈ landmarks := by
  obtain rfl := eq_opener_of_ofOpener? h
  cases bracket <;> decide

/-- Where the comment that is being read was opened. -/
def Mode.openedAt? : Mode → Option Location
  | blockComment openedAt => some openedAt
  | _ => none

/-- Neither a comment between stars nor a template is being read. -/
def Mode.isPlain : Mode → Bool
  | blockComment _ | template => false
  | _ => true

theorem Mode.openedAt?_of_isPlain {mode : Mode} (h : mode.isPlain = true) :
    mode.openedAt? = none ∧ mode ≠ .template := by
  cases mode <;> simp_all [isPlain, openedAt?]

namespace Reader

variable {r r' : Reader} {c : Char} {next next' : Option Char}

/-! ### What is noted in a step -/

theorem fault_fail (r : Reader) (defect : Defect) (location : Option Location) :
    (r.fail defect location).fault = r.fault.or (some ⟨defect, location⟩) := by
  rw [fail]
  cases hf : r.fault <;> simp [hf]

theorem stack_fail (r : Reader) (defect : Defect) (location : Option Location) :
    (r.fail defect location).stack = r.stack := by
  rw [fail]
  split <;> rfl

/-- The fault of a closing bracket at the place of the reader. -/
def closeFault? (r : Reader) (bracket : Bracket) : Option Fault :=
  match r.stack with
  | [] => some ⟨.unexpected bracket.closer, some r.location⟩
  | top :: _ =>
    if top.construct.fits bracket then none
    else some ⟨.mismatched top.construct top.openedAt bracket.closer, some r.location⟩

theorem close_spec (r : Reader) (bracket : Bracket) :
    (r.close bracket).stack = r.stack.tail ∧
      (r.close bracket).fault = r.fault.or (r.closeFault? bracket) ∧
      (r.mode.openedAt? = none → (r.close bracket).mode.openedAt? = none) ∧
      ((r.close bracket).mode = .template →
        r.mode = .template ∨ r.stack.head?.map (·.construct) = some .substitution) := by
  rw [close, closeFault?]
  cases hs : r.stack with
  | nil =>
    exact ⟨(stack_fail _ _ _).trans hs, fault_fail _ _ _, fun h => by rw [mode_fail, h],
      fun h => .inl ((mode_fail _ _ _).symm.trans h)⟩
  | cons top rest =>
    dsimp only
    cases hc : top.construct with
    | bracket opened =>
      cases opened <;> cases bracket <;>
        simp +contextual [hc, Construct.fits, Construct.closer, Bracket.closer, stack_fail,
          fault_fail, mode_fail, Mode.openedAt?]
    | _ =>
      cases bracket <;>
        simp +contextual [hc, Construct.fits, Construct.closer, Bracket.closer, stack_fail,
          fault_fail, mode_fail, Mode.openedAt?]

/-- The fault of a source that ends in a literal or a comment. -/
def unterminated? (r : Reader) : Option Fault :=
  match r.mode with
  | .blockComment openedAt => some ⟨.unterminatedComment, some openedAt⟩
  | .template => some ⟨.unterminatedTemplate, r.stack.head?.map OpenConstruct.openedAt⟩
  | _ => none

/-- The fault of a source that ends in a construct. -/
def unclosed? (r : Reader) : Option Fault :=
  r.stack.head?.map fun top => ⟨.unclosed top.construct, some top.openedAt⟩

theorem fault_finish (r : Reader) :
    r.finish.fault = (r.fault.or r.unterminated?).or r.unclosed? := by
  rw [finish, unterminated?, unclosed?]
  cases r.mode <;> cases hs : r.stack <;> simp [hs, fault_fail, stack_fail]

/-- The reader takes the character for a closing bracket. -/
def Closes (r : Reader) (c : Char) : Prop :=
  r.skip = false ∧ (∃ bracket, Bracket.ofCloser? c = some bracket) ∧
    (r.mode = .code ∨ ∃ tag, r.mode = .tag tag ∧ tag.root = true ∧ tag.closing = false)

theorem readCode_closer (r : Reader) (bracket : Bracket) (next : Option Char)
    (continuesWord : Bool) : ∃ code, r.readCode bracket.closer next continuesWord =
      { Reader.close { r with code } bracket with previous := some bracket.closer } := by
  obtain ⟨code, hm⟩ := r.markCode_eq bracket.closer
  refine ⟨code, ?_⟩
  rw [readCode, hm]
  cases bracket <;> simp [Bracket.closer, Bracket.ofOpener?, Bracket.ofCloser?]

/-- What a step notes that no bracket closes anything in: nothing, or where a construct or a comment
opens. A substitution opens in a template only. -/
structure Notes (r a : Reader) (c : Char) : Prop where
  fault : a.fault = r.fault
  stack : a.stack = r.stack ∨ (∃ top, r.stack = top :: a.stack) ∨
    c ∈ landmarks ∧ ∃ construct, a.stack = ⟨construct, r.location⟩ :: r.stack ∧
      (construct = .template → c = '\x60') ∧ (construct = .substitution → r.mode = .template)
  comment : a.mode.openedAt? = none ∨ a.mode.openedAt? = r.mode.openedAt? ∨
    r.mode.openedAt? = none ∧ a.mode.openedAt? = some r.location ∧ c ∈ landmarks
  template : a.mode = .template →
    r.mode = .template ∧ a.stack = r.stack ∨ a.stack = ⟨.template, r.location⟩ :: r.stack

namespace Notes

variable {a : Reader}

/-- Nothing is noted, and whatever begins is neither a comment nor a template. -/
theorem nothing (hs : a.stack = r.stack) (hf : a.fault = r.fault)
    (hm : a.mode.isPlain = true) : Notes r a c :=
  have ⟨hcomment, htemplate⟩ := Mode.openedAt?_of_isPlain hm
  ⟨hf, .inl hs, .inl hcomment, fun h => absurd h htemplate⟩

theorem same (hs : a.stack = r.stack) (hf : a.fault = r.fault) (hm : a.mode = r.mode) :
    Notes r a c :=
  ⟨hf, .inl hs, .inr (.inl (congrArg Mode.openedAt? hm)), fun h => .inl ⟨hm.symm.trans h, hs⟩⟩

/-- A construct opens whose inside is code. -/
theorem opens (hc : c ∈ landmarks) {construct : Construct}
    (hs : a.stack = ⟨construct, r.location⟩ :: r.stack) (hf : a.fault = r.fault)
    (hm : a.mode = .code) (ht : construct ≠ .template)
    (hsub : construct = .substitution → r.mode = .template) : Notes r a c :=
  ⟨hf, .inr (.inr ⟨hc, construct, hs, fun h => absurd h ht, hsub⟩), .inl (by rw [hm]; rfl),
    fun h => by rw [hm] at h; cases h⟩

end Notes

/-- A character of code that closes nothing. -/
theorem notes_readCode (hc : Bracket.ofCloser? c = none)
    (hm : r.mode = .code) (next : Option Char) (continuesWord : Bool) :
    Notes r (r.readCode c next continuesWord) c := by
  obtain ⟨code, hmark⟩ := r.markCode_eq c
  rw [readCode, hmark, hc]
  dsimp only
  split
  · exact .nothing rfl rfl rfl
  split
  · rename_i hslash
    refine ⟨rfl, .inl rfl, .inr (.inr ⟨by rw [hm]; rfl, rfl, ?_⟩), fun h => by cases h⟩
    rw [hslash.1]
    decide
  split
  · exact .nothing rfl rfl rfl
  split
  · exact .nothing rfl rfl rfl
  split
  · rename_i hgrave
    refine ⟨rfl, .inr (.inr ⟨?_, .template, rfl, fun _ => hgrave, fun h => by cases h⟩), .inl rfl,
      fun _ => .inr rfl⟩
    rw [hgrave]
    decide
  split
  · exact .nothing rfl rfl rfl
  split
  · rename_i bracket ho
    exact .opens (mem_landmarks_of_ofOpener? ho) rfl rfl hm (by simp) (by simp)
  rw [plain]
  repeat' split
  all_goals exact .same rfl rfl rfl

theorem notes_readTag {tag : Tag} (hm : r.mode = .tag tag)
    (hc : tag.root = true → tag.closing = false → Bracket.ofCloser? c = none)
    (next : Option Char) : Notes r (r.readTag tag c next) c := by
  rw [readTag, endTag]
  dsimp only
  split
  · repeat' split
    all_goals exact .nothing rfl rfl rfl
  split
  · exact .nothing rfl rfl rfl
  split
  · rename_i hbrace
    refine .opens ?_ rfl rfl rfl (by simp) (by simp)
    rw [hbrace]
    decide
  split
  · exact .nothing rfl rfl rfl
  split
  · exact .same rfl rfl rfl
  split
  · exact .nothing rfl rfl rfl
  split
  · rename_i hroot
    rw [Bool.and_eq_true, Bool.not_eq_true'] at hroot
    have hcode := notes_readCode (r := { r with mode := .code, previous := some '<' })
      (hc hroot.1 hroot.2) rfl next false
    have hnone : r.mode.openedAt? = none := by rw [hm]; rfl
    refine ⟨hcode.fault, ?_, ?_, fun h => ?_⟩
    · rcases hcode.stack with h | h | ⟨hmark, construct, h, htemplate, hsub⟩
      · exact .inl h
      · exact .inr (.inl h)
      · exact .inr (.inr ⟨hmark, construct, h, htemplate, fun he => by cases hsub he⟩)
    · rcases hcode.comment with h | h | ⟨-, h⟩
      · exact .inl h
      · exact .inl h
      · exact .inr (.inr ⟨hnone, h⟩)
    · rcases hcode.template h with ⟨hm, -⟩ | hs
      · cases hm
      · exact .inr hs
  · exact .same rfl rfl rfl

theorem notes_readMode (h : ¬ r.Closes c) (hs : r.skip = false) (next : Option Char)
    (continuesWord : Bool) : Notes r (r.readMode c next continuesWord) c := by
  have hcloser : (r.mode = .code ∨ ∃ tag, r.mode = .tag tag ∧ tag.root = true ∧
      tag.closing = false) → Bracket.ofCloser? c = none := fun hm => by
    cases hb : Bracket.ofCloser? c with
    | none => rfl
    | some bracket => exact absurd ⟨hs, ⟨bracket, hb⟩, hm⟩ h
  rw [readMode]
  cases hm : r.mode with
  | code => exact notes_readCode (hcloser (.inl hm)) hm next _
  | tag tag => exact notes_readTag hm (fun hr hc => hcloser (.inr ⟨tag, hm, hr, hc⟩)) next
  | template =>
    dsimp only
    split
    · exact .same rfl rfl hm.symm
    split
    · cases hstack : r.stack with
      | nil => exact .nothing hstack.symm rfl rfl
      | cons top rest => exact ⟨rfl, .inr (.inl ⟨top, hstack⟩), .inl rfl, fun h => by cases h⟩
    split
    · rename_i hdollar
      refine .opens ?_ rfl rfl rfl (by simp) fun _ => hm
      rw [hdollar.1]
      decide
    · exact .same rfl rfl rfl
  | text depth =>
    dsimp only
    split
    · exact .nothing rfl rfl rfl
    split
    · rename_i hbrace
      refine .opens ?_ rfl rfl rfl (by simp) (by simp)
      rw [hbrace]
      decide
    · exact .same rfl rfl rfl
  | _ =>
    dsimp only
    repeat' split
    all_goals first
      | exact .same rfl rfl rfl
      | exact .nothing rfl rfl rfl

/-- A step that closes nothing notes at most where something opens. -/
theorem notes_step (h : ¬ r.Closes c) (next : Option Char) : Notes r (r.step c next) c := by
  by_cases hs : r.skip = true
  · rw [step, if_pos hs]
    exact .same rfl rfl rfl
  · have hs : r.skip = false := Bool.eq_false_iff.mpr hs
    obtain ⟨offset, location, he⟩ := step_eq hs c next
    have hread := notes_readMode (r := { r with inWord := false }) h hs next r.inWord
    rw [he]
    exact ⟨hread.fault, hread.stack, hread.comment, hread.template⟩

/-- A step that closes something notes whether the bracket fits. Only the end of a substitution leads
into a template. -/
theorem step_of_closes (h : r.Closes c) {bracket : Bracket}
    (hb : Bracket.ofCloser? c = some bracket) (next : Option Char) :
    (r.step c next).stack = r.stack.tail ∧
      (r.step c next).fault = r.fault.or (r.closeFault? bracket) ∧
      (r.step c next).mode.openedAt? = none ∧
      ((r.step c next).mode = .template →
        r.stack.head?.map (·.construct) = some .substitution) := by
  obtain ⟨hs, -, hm⟩ := h
  obtain rfl := eq_closer_of_ofCloser? hb
  have hcode : ∀ (r : Reader) (continuesWord : Bool), r.mode = .code →
      (r.readCode bracket.closer next continuesWord).stack = r.stack.tail ∧
        (r.readCode bracket.closer next continuesWord).fault =
          r.fault.or (r.closeFault? bracket) ∧
        (r.readCode bracket.closer next continuesWord).mode.openedAt? = none ∧
        ((r.readCode bracket.closer next continuesWord).mode = .template →
          r.stack.head?.map (·.construct) = some .substitution) := by
    intro r continuesWord hm
    obtain ⟨code, he⟩ := r.readCode_closer bracket next continuesWord
    obtain ⟨hstack, hfault, hmode, htemplate⟩ := close_spec { r with code } bracket
    rw [he]
    exact ⟨hstack, hfault, hmode (by rw [hm]; rfl), fun h =>
      (htemplate h).resolve_left fun ht => by cases hm.symm.trans ht⟩
  obtain ⟨offset, location, he⟩ := step_eq hs bracket.closer next
  rw [he]
  rcases hm with hm | ⟨tag, hm, hroot, hclosing⟩
  · simp only [readMode, hm]
    exact hcode { r with inWord := false, mode := .code } _ rfl
  · have htag : ∀ r : Reader, r.readTag tag bracket.closer next =
        { r with mode := .code, previous := some '<' }.readCode bracket.closer next false := by
      intro r
      rw [readTag, hroot, hclosing]
      cases bracket <;> rfl
    simp only [readMode, hm, htag]
    exact hcode { r with inWord := false, mode := .code, previous := some '<' } _ rfl

theorem Near.closes_iff (h : Near r r') : r.Closes c ↔ r'.Closes c := by
  rw [Closes, Closes, h.skip]
  rcases Mode.eq_or_of_erase_eq h.mode with he | ⟨openedAt, openedAt', hr, hr'⟩
  · rw [he]
  · simp [hr, hr']

theorem Near.openedAt?_eq_none_iff (h : Near r r') :
    r.mode.openedAt? = none ↔ r'.mode.openedAt? = none := by
  rcases Mode.eq_or_of_erase_eq h.mode with he | ⟨openedAt, openedAt', hr, hr'⟩
  · rw [he]
  · rw [hr, hr']
    exact iff_of_false (Option.some_ne_none _) (Option.some_ne_none _)

/-! ### Readers at the same place -/

/-- What the readers noted is the same, each at its own locations. -/
structure Paired (R : Location → Location → Prop) (r r' : Reader) : Prop where
  comment : Option.Rel R r.mode.openedAt? r'.mode.openedAt?
  stack : List.Forall₂ (fun o o' : OpenConstruct =>
    o.construct = o'.construct ∧ R o.openedAt o'.openedAt) r.stack r'.stack
  fault : Option.Rel (Fault.Moved R) r.fault r'.fault

section Paired

variable {R : Location → Location → Prop}

namespace Paired

/-- The same bracket shows the same fault. -/
theorem closeFault? (h : Paired R r r') (hl : R r.location r'.location) (bracket : Bracket) :
    Option.Rel (Fault.Moved R) (r.closeFault? bracket) (r'.closeFault? bracket) := by
  have hstack := h.stack
  rw [Reader.closeFault?, Reader.closeFault?]
  generalize r.stack = stack, r'.stack = stack' at hstack
  cases hstack with
  | nil => exact .some ⟨.unexpected _, .some hl⟩
  | cons htop _ =>
    obtain ⟨hconstruct, hopened⟩ := htop
    dsimp only
    rw [← hconstruct]
    split
    · exact .none
    · exact .some ⟨.mismatched _ _ hopened, .some hl⟩

/-- The stacks stay paired, since they grow or shrink together. -/
theorem stack_of_notes {a a' : Reader} (h : Paired R r r') (hn : Near r r') (ha : Near a a')
    (hl : c ≠ '\n' → R r.location r'.location) (hnotes : Notes r a c) (hnotes' : Notes r' a' c) :
    List.Forall₂ (fun o o' : OpenConstruct =>
      o.construct = o'.construct ∧ R o.openedAt o'.openedAt) a.stack a'.stack := by
  have hlength := congrArg List.length hn.stack
  have hafter := congrArg List.length ha.stack
  have hpaired := h.stack
  simp only [List.length_map] at hlength hafter
  rcases hnotes.stack with hs | ⟨top, hs⟩ | ⟨hmark, construct, hs, -⟩
  · rcases hnotes'.stack with hs' | ⟨top', hs'⟩ | ⟨-, construct', hs', -⟩
    · rwa [hs, hs']
    · simp [hs, hs'] at hlength hafter
      omega
    · simp [hs, hs'] at hlength hafter
      omega
  · rcases hnotes'.stack with hs' | ⟨top', hs'⟩ | ⟨-, construct', hs', -⟩
    · simp [hs, hs'] at hlength hafter
      omega
    · rw [hs, hs'] at hpaired
      exact (List.forall₂_cons.mp hpaired).2
    · simp [hs, hs'] at hlength hafter
      omega
  · rcases hnotes'.stack with hs' | ⟨top', hs'⟩ | ⟨-, construct', hs', -⟩
    · simp [hs, hs'] at hlength hafter
      omega
    · simp [hs, hs'] at hlength hafter
      omega
    · have hconstructs := ha.stack
      rw [hs, hs', List.map_cons, List.map_cons] at hconstructs
      rw [hs, hs']
      exact .cons ⟨(List.cons.inj hconstructs).1, hl (ne_break_of_mem_landmarks hmark)⟩ hpaired

/-- Either both readers come to a comment or neither does. -/
theorem comment_of_notes {a a' : Reader} (h : Paired R r r') (hn : Near r r') (ha : Near a a')
    (hl : c ≠ '\n' → R r.location r'.location) (hnotes : Notes r a c) (hnotes' : Notes r' a' c) :
    Option.Rel R a.mode.openedAt? a'.mode.openedAt? := by
  have hbefore := hn.openedAt?_eq_none_iff
  have hafter := ha.openedAt?_eq_none_iff
  rcases hnotes.comment with hm | hm | ⟨hnone, hm, hmark⟩
  · rw [hm, hafter.mp hm]
    exact .none
  · rcases hnotes'.comment with hm' | hm' | ⟨hnone', hm', -⟩
    · rw [hm', hafter.mpr hm']
      exact .none
    · rw [hm, hm']
      exact h.comment
    · rw [hafter.mp (hm.trans (hbefore.mpr hnone'))] at hm'
      cases hm'
  · rcases hnotes'.comment with hm' | hm' | ⟨-, hm', -⟩
    · rw [hafter.mpr hm'] at hm
      cases hm
    · rw [hafter.mpr (hm'.trans (hbefore.mp hnone))] at hm
      cases hm
    · rw [hm, hm']
      exact .some (hl (ne_break_of_mem_landmarks hmark))

/-- A step over the same character keeps readers paired, when they stand at the same place and still
go on alike behind it. -/
theorem step (h : Paired R r r') (hn : Near r r') (hl : c ≠ '\n' → R r.location r'.location)
    (ha : Near (r.step c next) (r'.step c next')) :
    Paired R (r.step c next) (r'.step c next') := by
  by_cases hc : r.Closes c
  · obtain ⟨bracket, hb⟩ := hc.2.1
    have hbreak : c ≠ '\n' := by
      rintro rfl
      cases hb
    obtain ⟨hstack, hfault, hmode, -⟩ := step_of_closes hc hb next
    obtain ⟨hstack', hfault', hmode', -⟩ := step_of_closes (hn.closes_iff.mp hc) hb next'
    refine ⟨?_, ?_, ?_⟩
    · rw [hmode, hmode']
      exact .none
    · rw [hstack, hstack', ← List.drop_one, ← List.drop_one]
      exact List.forall₂_drop 1 h.stack
    · rw [hfault, hfault']
      exact rel_or h.fault (h.closeFault? (hl hbreak) bracket)
  · have hnotes := notes_step hc next
    have hnotes' := notes_step (mt hn.closes_iff.mpr hc) next'
    refine ⟨h.comment_of_notes hn ha hl hnotes hnotes', h.stack_of_notes hn ha hl hnotes hnotes', ?_⟩
    rw [hnotes.fault, hnotes'.fault]
    exact h.fault

theorem head?_stack (h : Paired R r r') :
    Option.Rel (fun o o' : OpenConstruct => o.construct = o'.construct ∧ R o.openedAt o'.openedAt)
      r.stack.head? r'.stack.head? := by
  have hstack := h.stack
  generalize r.stack = stack, r'.stack = stack' at hstack
  cases hstack with
  | nil => exact .none
  | cons htop _ => exact .some htop

theorem unterminated? (h : Paired R r r') (hn : Near r r') :
    Option.Rel (Fault.Moved R) r.unterminated? r'.unterminated? := by
  have hcomment := h.comment
  rw [Reader.unterminated?, Reader.unterminated?]
  rcases Mode.eq_or_of_erase_eq hn.mode with he | ⟨openedAt, openedAt', hr, hr'⟩
  · rw [he] at hcomment ⊢
    cases hm : r.mode with
    | blockComment openedAt =>
      rw [hm] at hcomment
      exact .some ⟨.unterminatedComment, hcomment⟩
    | template =>
      refine .some ⟨.unterminatedTemplate, ?_⟩
      have hhead := h.head?_stack
      generalize r.stack.head? = top, r'.stack.head? = top' at hhead
      cases hhead with
      | none => exact .none
      | some htop => exact .some htop.2
    | _ => exact .none
  · rw [hr, hr'] at hcomment ⊢
    exact .some ⟨.unterminatedComment, hcomment⟩

theorem unclosed? (h : Paired R r r') :
    Option.Rel (Fault.Moved R) r.unclosed? r'.unclosed? := by
  have hhead := h.head?_stack
  rw [Reader.unclosed?, Reader.unclosed?]
  generalize r.stack.head? = top, r'.stack.head? = top' at hhead
  cases hhead with
  | none => exact .none
  | @some top top' htop =>
    rw [Option.map_some, Option.map_some, htop.1]
    exact .some ⟨.unclosed _, .some htop.2⟩

/-- Readers that come to the ends of their sources have found the same fault. -/
theorem finish (h : Paired R r r') (hn : Near r r') :
    Option.Rel (Fault.Moved R) r.finish.fault r'.finish.fault := by
  rw [fault_finish, fault_finish]
  exact rel_or (rel_or h.fault (h.unterminated? hn)) h.unclosed?

end Paired

end Paired

end Reader

end LivePreview.Source
