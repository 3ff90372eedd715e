import Mathlib.Logic.Basic
import LivePreview.Proofs.Text.Bytes
import LivePreview.Source.CodeMap

/-!
# What is code

The code map says of the first byte of a character whether the reader marked that character. For a
character of identifiers this is so exactly when the reader comes to it in code.
-/
namespace LivePreview.Source

open LivePreview.Text

namespace Reader

/-- The state between the two parts of a source. -/
def through (r : Reader) : List Char → List Char → Reader
  | [], _ => r
  | c :: front, rest => (r.step c (front ++ rest).head?).through front rest

theorem run_append (r : Reader) (front rest : List Char) :
    r.run (front ++ rest) = (r.through front rest).run rest := by
  induction front generalizing r with
  | nil => rfl
  | cons c front ih => exact ih _

theorem through_append (r : Reader) (front middle rest : List Char) :
    r.through (front ++ middle) rest =
      (r.through front (middle ++ rest)).through middle rest := by
  induction front generalizing r with
  | nil => rfl
  | cons c front ih =>
    rw [List.cons_append, through, ih, through, List.append_assoc]

/-! ### Marked characters -/

theorem code_fail (r : Reader) (defect : Defect) (location : Option Location) :
    (r.fail defect location).code = r.code := by
  rw [fail]
  split <;> rfl

theorem code_close (r : Reader) (bracket : Bracket) : (r.close bracket).code = r.code := by
  rw [close]
  split
  · exact code_fail _ _ _
  · dsimp only
    split
    · rfl
    · rfl
    · rfl
    · split
      · rfl
      · exact code_fail _ _ _
    · exact code_fail _ _ _

theorem code_plain (r : Reader) (c : Char) (continuesWord : Bool) :
    (r.plain c continuesWord).code = r.code := by
  rw [plain]
  split
  · rfl
  · split <;> rfl

/-- The code ranges with the character at the offset behind them. -/
def extend (code : List Span) (offset size : Nat) : List Span :=
  match code with
  | last :: rest =>
    if last.stop = offset then ⟨last.start, offset + size⟩ :: rest
    else ⟨offset, offset + size⟩ :: last :: rest
  | [] => [⟨offset, offset + size⟩]

theorem code_markCode (r : Reader) (c : Char) :
    (r.markCode c).code = extend r.code r.offset c.utf8Size := by
  rw [markCode, extend.eq_def]
  cases r.code with
  | nil => rfl
  | cons last rest =>
    dsimp only
    split <;> rfl

/-- Whatever is read as code is marked. -/
theorem code_readCode (r : Reader) (c : Char) (next : Option Char) (continuesWord : Bool) :
    (r.readCode c next continuesWord).code = extend r.code r.offset c.utf8Size := by
  rw [← code_markCode, readCode]
  dsimp only
  repeat' split
  all_goals first | rfl | exact code_close _ _ | exact code_plain _ _ _

/-- The next character is read as code. -/
def InCode (r : Reader) : Prop := r.skip = false ∧ r.mode = .code

instance (r : Reader) : Decidable r.InCode := by unfold InCode; infer_instance

/-- A character that is code in code alone. In a tag, any other may turn out to be code. -/
def Decisive (c : Char) : Prop := isIdentifierChar c = true ∨ c = '\'' ∨ c = '"'

theorem code_endTag (r : Reader) (tag : Tag) : (r.endTag tag).code = r.code := by
  rw [endTag]
  repeat' split
  all_goals rfl

theorem code_readTag (r : Reader) (tag : Tag) (c : Char) (next : Option Char) :
    (r.readTag tag c next).code = r.code ∨ ¬ Decisive c ∧
      (r.readTag tag c next).code = extend r.code r.offset c.utf8Size := by
  rw [readTag]
  repeat' split
  case isTrue => exact .inl (code_endTag _ _)
  case' isFalse.isFalse.isFalse.isFalse.isFalse.isFalse.isTrue =>
    refine .inr ⟨?_, code_readCode _ _ _ _⟩
    simp_all [Decisive]
  all_goals exact .inl rfl

theorem code_readMode (r : Reader) (c : Char) (next : Option Char) (continuesWord : Bool) :
    (r.mode = .code ∨ ¬ Decisive c) ∧
        (r.readMode c next continuesWord).code = extend r.code r.offset c.utf8Size ∨
      r.mode ≠ .code ∧ (r.readMode c next continuesWord).code = r.code := by
  rw [readMode]
  cases hm : r.mode with
  | code => exact .inl ⟨.inl rfl, code_readCode _ _ _ _⟩
  | tag tag =>
    rcases code_readTag r tag c next with h | ⟨hc, h⟩
    · exact .inr ⟨by simp, h⟩
    · exact .inl ⟨.inr hc, h⟩
  | _ =>
    refine .inr ⟨by simp, ?_⟩
    dsimp only
    repeat' split
    all_goals rfl

/-- One step marks the character or nothing. -/
theorem code_step (r : Reader) (c : Char) (next : Option Char) :
    (r.InCode ∨ ¬ Decisive c) ∧ (r.step c next).code = extend r.code r.offset c.utf8Size ∨
      ¬ r.InCode ∧ (r.step c next).code = r.code := by
  have hstep : (r.step c next).code =
      (if r.skip then r.code else ({ r with inWord := false }.readMode c next r.inWord).code) := by
    rw [step]
    dsimp only
    split <;> rfl
  rw [hstep]
  by_cases hs : r.skip = true
  · rw [if_pos hs]
    exact .inr ⟨fun h => by simp [h.1] at hs, rfl⟩
  · rw [if_neg hs]
    rcases code_readMode { r with inWord := false } c next r.inWord with ⟨hm, h⟩ | ⟨hm, h⟩
    · exact .inl ⟨hm.imp_left fun hm => ⟨by simpa using hs, hm⟩, h⟩
    · exact .inr ⟨fun hin => hm hin.2, h⟩

/-! ### Ranges -/

/-- The ranges, the last one first, are apart and end in front of the offset. -/
structure Ordered (code : List Span) (offset : Nat) : Prop where
  apart : code.Pairwise fun later earlier => earlier.stop ≤ later.start
  bounds : ∀ span ∈ code, span.start < span.stop ∧ span.stop ≤ offset

/-- The offset lies in one of the ranges. -/
def Covers (code : List Span) (offset : Nat) : Prop := ∃ span ∈ code, span.contains offset = true

theorem Ordered.mono {code : List Span} {offset offset' : Nat} (h : Ordered code offset)
    (hle : offset ≤ offset') : Ordered code offset' :=
  ⟨h.apart, fun span hm => ⟨(h.bounds span hm).1, Nat.le_trans (h.bounds span hm).2 hle⟩⟩

theorem Ordered.not_covers {code : List Span} {offset : Nat} (h : Ordered code offset) :
    ¬ Covers code offset := by
  rintro ⟨span, hm, hc⟩
  have hle := (h.bounds span hm).2
  simp only [Span.contains, Bool.and_eq_true, decide_eq_true_eq] at hc
  omega

theorem Ordered.extend {code : List Span} {offset size : Nat} (h : Ordered code offset)
    (hs : 0 < size) : Ordered (extend code offset size) (offset + size) := by
  cases code with
  | nil => exact ⟨List.pairwise_singleton _ _, by simp [Reader.extend, hs]⟩
  | cons last rest =>
    obtain ⟨hlast, hrest⟩ := List.pairwise_cons.mp h.apart
    obtain ⟨hlb, hrb⟩ := List.forall_mem_cons.mp h.bounds
    have hmono : ∀ span ∈ rest, span.start < span.stop ∧ span.stop ≤ offset + size :=
      fun span hm => ⟨(hrb span hm).1, by have := (hrb span hm).2; omega⟩
    rw [Reader.extend]
    split
    · exact ⟨List.pairwise_cons.mpr ⟨hlast, hrest⟩,
        List.forall_mem_cons.mpr ⟨⟨by show last.start < offset + size; omega, Nat.le_refl _⟩, hmono⟩⟩
    · refine ⟨List.pairwise_cons.mpr ⟨fun span hm => (h.bounds span hm).2, h.apart⟩, ?_⟩
      refine List.forall_mem_cons.mpr ⟨⟨by show offset < offset + size; omega, Nat.le_refl _⟩, ?_⟩
      exact List.forall_mem_cons.mpr ⟨⟨hlb.1, by omega⟩, hmono⟩

/-- To extend the ranges covers the new character and what was covered. -/
theorem covers_extend {code : List Span} {offset : Nat} (h : Ordered code offset) (size x : Nat) :
    Covers (extend code offset size) x ↔ Covers code x ∨ offset ≤ x ∧ x < offset + size := by
  cases code with
  | nil => simp [Covers, extend, Span.contains]
  | cons last rest =>
    have hlast := (h.bounds last List.mem_cons_self)
    simp only [Covers, Span.contains, Bool.and_eq_true, decide_eq_true_eq, extend]
    split
    · simp only [List.mem_cons, exists_eq_or_imp]
      constructor
      · rintro (hx | hx)
        · by_cases hlt : x < offset
          · exact .inl (.inl ⟨hx.1, by omega⟩)
          · exact .inr ⟨by omega, hx.2⟩
        · exact .inl (.inr hx)
      · rintro ((hx | hx) | hx)
        · exact .inl ⟨hx.1, by omega⟩
        · exact .inr hx
        · exact .inl ⟨by omega, hx.2⟩
    · simp only [List.mem_cons, exists_eq_or_imp]
      exact or_comm

/-- Of ranges in order, the first that ends behind an offset covers it if any does. -/
theorem isCode_iff {map : CodeMap} (h : map.code.Pairwise fun a b => a.stop ≤ b.start)
    (hb : ∀ span ∈ map.code, span.start < span.stop) (x : Nat) :
    map.isCode x = true ↔ Covers map.code x := by
  obtain ⟨code, fault⟩ := map
  induction code with
  | nil => simp [CodeMap.isCode, Covers]
  | cons first rest ih =>
    obtain ⟨hfirst, hrest⟩ := List.pairwise_cons.mp h
    obtain ⟨hbf, hbr⟩ := List.forall_mem_cons.mp hb
    by_cases hx : first.stop ≤ x
    · have hskip : (CodeMap.mk (first :: rest) fault).isCode x =
          (CodeMap.mk rest fault).isCode x := by
        simp [CodeMap.isCode, hx]
      have hn : ¬ first.contains x = true := by
        simp only [Span.contains, Bool.and_eq_true, decide_eq_true_eq]
        omega
      rw [hskip, ih hrest hbr]
      simp [Covers, hn]
    · have hhead : (CodeMap.mk (first :: rest) fault).isCode x = first.contains x := by
        simp [CodeMap.isCode, hx]
      have hlater : ∀ span ∈ rest, ¬ span.contains x = true := by
        intro span hm hc
        have hle := hfirst span hm
        simp only [Span.contains, Bool.and_eq_true, decide_eq_true_eq] at hc
        omega
      rw [hhead, Covers]
      simp only [List.mem_cons, exists_eq_or_imp]
      constructor
      · exact Or.inl
      · rintro (hc | ⟨span, hm, hc⟩)
        · exact hc
        · exact absurd hc (hlater span hm)

/-! ### Whole sources -/

theorem offset_step (r : Reader) (c : Char) (next : Option Char) :
    (r.step c next).offset = r.offset + c.utf8Size := rfl

theorem offset_through (r : Reader) (front rest : List Char) :
    (r.through front rest).offset = r.offset + byteLength front := by
  induction front generalizing r with
  | nil => rfl
  | cons c front ih => rw [through, ih, offset_step, byteLength_cons, Nat.add_assoc]

theorem ordered_step {r : Reader} (h : Ordered r.code r.offset) (c : Char) (next : Option Char) :
    Ordered (r.step c next).code (r.step c next).offset := by
  rw [offset_step]
  rcases r.code_step c next with ⟨_, hc⟩ | ⟨_, hc⟩
  · rw [hc]
    exact h.extend c.utf8Size_pos
  · rw [hc]
    exact h.mono (Nat.le_add_right _ _)

/-- What lies in front of the offset stays as it is. -/
theorem covers_run {r : Reader} (h : Ordered r.code r.offset) (cs : List Char) {x : Nat}
    (hx : x < r.offset) : Covers (r.run cs).code x ↔ Covers r.code x := by
  induction cs generalizing r with
  | nil => rfl
  | cons c cs ih =>
    have hlt : x < (r.step c cs.head?).offset := by
      rw [offset_step]
      omega
    rw [run, ih (ordered_step h c _) hlt]
    rcases r.code_step c cs.head? with ⟨_, hc⟩ | ⟨_, hc⟩
    · rw [hc, covers_extend h]
      exact or_iff_left fun hle => by omega
    · rw [hc]

theorem ordered_through {r : Reader} (h : Ordered r.code r.offset) (front rest : List Char) :
    Ordered (r.through front rest).code (r.through front rest).offset := by
  induction front generalizing r with
  | nil => exact h
  | cons c front ih => exact ih (ordered_step h c _)

theorem ordered_run {r : Reader} (h : Ordered r.code r.offset) (cs : List Char) :
    Ordered (r.run cs).code (r.run cs).offset := by
  induction cs generalizing r with
  | nil => exact h
  | cons c cs ih => exact ih (ordered_step h c _)

theorem code_finish (r : Reader) : r.finish.code = r.code.reverse := by
  rw [finish]
  cases r.mode with
  | blockComment openedAt => dsimp only; split <;> simp only [code_fail]
  | template => dsimp only; split <;> simp only [code_fail]
  | _ => dsimp only; split <;> simp only [code_fail]

end Reader

/-- An offset is code when the step over the character there covers it. -/
theorem isCode_ofSource_iff (markup : Bool) (front : List Char) (c : Char) (rest : List Char) :
    (CodeMap.ofSource (front ++ c :: rest) markup).isCode (byteLength front) = true ↔
      Reader.Covers ((({ markup } : Reader).through front (c :: rest)).step c rest.head?).code
        (byteLength front) := by
  let r := ({ markup } : Reader).through front (c :: rest)
  have hr : Reader.Ordered r.code r.offset := Reader.ordered_through ⟨.nil, by simp⟩ front _
  have hstep := Reader.ordered_step hr c rest.head?
  have hfinal := Reader.ordered_run hstep rest
  have hlt : byteLength front < (r.step c rest.head?).offset := by
    have ho : r.offset = 0 + byteLength front := Reader.offset_through _ _ _
    have hc := c.utf8Size_pos
    rw [Reader.offset_step]
    omega
  have hrun : ({ markup } : Reader).run (front ++ c :: rest) = (r.step c rest.head?).run rest :=
    Reader.run_append _ _ _
  have hcode : (CodeMap.ofSource (front ++ c :: rest) markup).code =
      ((r.step c rest.head?).run rest).code.reverse := by
    rw [CodeMap.ofSource, hrun, Reader.code_finish]
  rw [Reader.isCode_iff, hcode, ← Reader.covers_run hstep rest hlt]
  · simp only [Reader.Covers, List.mem_reverse]
  · rw [hcode]
    exact List.pairwise_reverse.mpr hfinal.apart
  · rw [hcode]
    exact fun span hm => (hfinal.bounds span (List.mem_reverse.mp hm)).1

/-- A character of identifiers, or a quote, is code when the reader comes to it in code. -/
theorem isCode_iff_inCode {markup : Bool} {front : List Char} {c : Char} {rest : List Char}
    (h : Reader.Decisive c) :
    (CodeMap.ofSource (front ++ c :: rest) markup).isCode (byteLength front) = true ↔
      (({ markup } : Reader).through front (c :: rest)).InCode := by
  let r := ({ markup } : Reader).through front (c :: rest)
  have hr : Reader.Ordered r.code r.offset := Reader.ordered_through ⟨.nil, by simp⟩ front _
  have ho : r.offset = byteLength front := (Reader.offset_through _ _ _).trans (Nat.zero_add _)
  have hc := c.utf8Size_pos
  rw [isCode_ofSource_iff]
  rcases r.code_step c rest.head? with ⟨hin, hcode⟩ | ⟨hin, hcode⟩
  · rw [hcode, Reader.covers_extend hr]
    exact iff_of_true (.inr ⟨by omega, by omega⟩) (hin.resolve_right (not_not_intro h))
  · rw [hcode, ← ho]
    exact iff_of_false hr.not_covers hin

end LivePreview.Source
