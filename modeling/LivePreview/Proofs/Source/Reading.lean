import LivePreview.Proofs.Source.Revision
import LivePreview.Proofs.Source.Fault

/-!
# Reading code

The steps of a reader over characters of code that open no literal, comment or element: brackets,
identifiers and the rest. A fault that a reader has found stays.
-/
namespace LivePreview.Source

open LivePreview.Text

/-! ### Letters and digits -/

theorem toNat_of_isAlphanum {c : Char} (h : c.isAlphanum = true) :
    0x30 ≤ c.toNat ∧ c.toNat ≤ 0x39 ∨ 0x41 ≤ c.toNat ∧ c.toNat ≤ 0x5A ∨
      0x61 ≤ c.toNat ∧ c.toNat ≤ 0x7A := by
  delta Char.isAlphanum Char.isAlpha Char.isUpper Char.isLower Char.isDigit at h
  simp only [Bool.or_eq_true, Bool.and_eq_true, decide_eq_true_eq, ge_iff_le,
    UInt32.le_iff_toNat_le, Char.toNat_val, Char.reduceToNat] at h
  omega

theorem isAscii_of_isAlphanum {c : Char} (h : c.isAlphanum = true) : isAscii c = true := by
  have hn := toNat_of_isAlphanum h
  simp only [isAscii, decide_eq_true_eq]
  omega

theorem isIdentifierChar_of_isAlphanum {c : Char} (h : c.isAlphanum = true) :
    isIdentifierChar c = true := by
  have hascii := isAscii_of_isAlphanum h
  rw [Char.isAlphanum] at h
  simp only [isIdentifierChar, isAlphanumeric, isAlphabetic, isNumeric, hascii, if_true, h,
    Bool.true_or]

theorem isAlphanum_of_isAlpha {c : Char} (h : c.isAlpha = true) : c.isAlphanum = true := by
  rw [Char.isAlphanum, h, Bool.true_or]

theorem isAlphabetic_of_isAlpha {c : Char} (h : c.isAlpha = true) : isAlphabetic c = true := by
  rw [isAlphabetic, if_pos (isAscii_of_isAlphanum (isAlphanum_of_isAlpha h)), h]

theorem isBlank_of_isAlphanum {c : Char} (h : c.isAlphanum = true) : isBlank c = false := by
  have hn := toNat_of_isAlphanum h
  simp only [isBlank, inRanges, List.any_cons, List.any_nil, Bool.or_false,
    Bool.or_eq_false_iff, Bool.and_eq_false_iff, decide_eq_false_iff_not]
  omega

theorem not_ambiguous_of_isAlphanum {c : Char} (h : c.isAlphanum = true) :
    c ∉ Reader.ambiguous := by
  intro hc
  have hall : ∀ c ∈ Reader.ambiguous, c.isAlphanum = false := by simp [Reader.ambiguous]
  rw [hall c hc] at h
  cases h

theorem ofBracket?_of_isAlphanum {c : Char} (h : c.isAlphanum = true) :
    Bracket.ofOpener? c = none ∧ Bracket.ofCloser? c = none := by
  have hc := isIdentifierChar_of_isAlphanum h
  refine ⟨Option.eq_none_iff_forall_ne_some.mpr fun bracket ho => ?_,
    Option.eq_none_iff_forall_ne_some.mpr fun bracket ho => ?_⟩
  · rw [Reader.isIdentifierChar_ofOpener? ho] at hc
    cases hc
  · rw [Reader.isIdentifierChar_ofCloser? ho] at hc
    cases hc

namespace Bracket

@[simp] theorem ofOpener?_opener (bracket : Bracket) : ofOpener? bracket.opener = some bracket := by
  cases bracket <;> rfl

@[simp] theorem ofOpener?_closer (bracket : Bracket) : ofOpener? bracket.closer = none := by
  cases bracket <;> rfl

@[simp] theorem ofCloser?_closer (bracket : Bracket) : ofCloser? bracket.closer = some bracket := by
  cases bracket <;> rfl

end Bracket

namespace Reader

variable {r r' r'' : Reader} {c : Char}

/-- The second reader goes on where the first one was: in the same mode, with the same constructs
open and the same fault. -/
structure Resumes (r r' : Reader) : Prop where
  markup : r'.markup = r.markup
  mode : r'.mode = r.mode
  skip : r'.skip = r.skip
  stack : r'.stack = r.stack
  fault : r'.fault = r.fault

namespace Resumes

theorem refl (r : Reader) : Resumes r r := ⟨rfl, rfl, rfl, rfl, rfl⟩

theorem trans (h : Resumes r r') (h' : Resumes r' r'') : Resumes r r'' :=
  ⟨h'.markup.trans h.markup, h'.mode.trans h.mode, h'.skip.trans h.skip, h'.stack.trans h.stack,
    h'.fault.trans h.fault⟩

theorem inCode (h : Resumes r r') (hr : r.InCode) : r'.InCode :=
  ⟨h.skip.trans hr.1, h.mode.trans hr.2⟩

end Resumes

/-! ### Single characters -/

/-- The characters that open no literal, comment or element. -/
def Harmless (markup : Bool) (c : Char) : Prop :=
  c ∉ ['/', '\'', '"', '\x60'] ∧ (c = '<' → markup = false)

theorem harmless_of_not_ambiguous {markup : Bool} (hc : c ∉ ambiguous) : Harmless markup c := by
  simp only [ambiguous, List.mem_cons, List.not_mem_nil, or_false, not_or] at hc
  refine ⟨?_, fun he => absurd he hc.2.2.2.2.1⟩
  simp only [List.mem_cons, List.not_mem_nil, or_false, not_or]
  exact ⟨hc.1, hc.2.1, hc.2.2.1, hc.2.2.2.1⟩

theorem readMode_code (h : r.mode = .code) (c : Char) (next : Option Char) (continuesWord : Bool) :
    r.readMode c next continuesWord = r.readCode c next continuesWord := by
  rw [readMode, h]

theorem readMode_tag {tag : Tag} (h : r.mode = .tag tag) (c : Char) (next : Option Char)
    (continuesWord : Bool) : r.readMode c next continuesWord = r.readTag tag c next := by
  rw [readMode, h]

theorem readCode_of_harmless (hc : Harmless r.markup c) (next : Option Char)
    (continuesWord : Bool) :
    ∃ code, r.readCode c next continuesWord = readOther { r with code } c continuesWord := by
  obtain ⟨code, hm⟩ := r.markCode_eq c
  obtain ⟨hopens, hless⟩ := hc
  simp only [List.mem_cons, List.not_mem_nil, or_false, not_or] at hopens
  obtain ⟨hslash, hsingle, hdouble, hgrave⟩ := hopens
  have htag : ¬ (c = '<' ∧ r.markup = true ∧ Reader.expressionMayStart { r with code } = true ∧
      next.any (fun d => isAlphabetic d || d == '>') = true) := by
    rintro ⟨he, hmarkup, -⟩
    rw [hless he] at hmarkup
    cases hmarkup
  refine ⟨code, ?_⟩
  rw [readCode, hm]
  simp only [hslash, hsingle, hdouble, hgrave, htag, false_and, or_self, if_false]
  rfl

namespace InCode

theorem step_harmless (h : r.InCode) (hc : Harmless r.markup c) (next : Option Char) :
    ∃ offset location code, r.step c next =
      { readOther { r with inWord := false, code } c r.inWord with offset, location } := by
  obtain ⟨offset, location, he⟩ := step_eq h.1 c next
  obtain ⟨code, hread⟩ := readCode_of_harmless (r := { r with inWord := false }) hc next r.inWord
  refine ⟨offset, location, code, he.trans ?_⟩
  rw [← hread, readMode_code (r := { r with inWord := false }) h.2]

theorem step_opener (h : r.InCode) (bracket : Bracket) (next : Option Char) :
    ∃ offset location code, r.step bracket.opener next =
      { r with
        stack := ⟨.bracket bracket, r.location⟩ :: r.stack
        inWord := false, previous := some bracket.opener, offset, location, code } := by
  have hc : Harmless r.markup bracket.opener := by
    cases bracket <;> exact ⟨by decide, fun he => by cases he⟩
  obtain ⟨offset, location, code, he⟩ := h.step_harmless hc next
  refine ⟨offset, location, code, he.trans ?_⟩
  rw [readOther, Bracket.ofOpener?_opener]
  rfl

/-- A closing bracket of code that fits. -/
theorem step_closer (h : r.InCode) {bracket : Bracket} {openedAt : Location}
    {rest : List OpenConstruct} (hs : r.stack = ⟨.bracket bracket, openedAt⟩ :: rest)
    (next : Option Char) : ∃ offset location code, r.step bracket.closer next =
      { r with
        stack := rest
        inWord := false, previous := some bracket.closer, offset, location, code } := by
  have hc : Harmless r.markup bracket.closer := by
    cases bracket <;> exact ⟨by decide, fun he => by cases he⟩
  obtain ⟨offset, location, code, he⟩ := h.step_harmless hc next
  refine ⟨offset, location, code, he.trans ?_⟩
  rw [readOther, Bracket.ofOpener?_closer, Bracket.ofCloser?_closer]
  simp only [close, hs, if_true]

/-- A letter or digit of code continues a word or begins one. -/
theorem step_alphanum (h : r.InCode) (hc : c.isAlphanum = true) (next : Option Char) :
    ∃ offset location code, r.step c next =
      { r with
        word := (if r.inWord then r.word else "").push c
        inWord := true, previous := some c, offset, location, code } := by
  have ha : Harmless r.markup c := harmless_of_not_ambiguous (not_ambiguous_of_isAlphanum hc)
  obtain ⟨hopen, hclose⟩ := ofBracket?_of_isAlphanum hc
  obtain ⟨offset, location, code, he⟩ := h.step_harmless ha next
  refine ⟨offset, location, code, he.trans ?_⟩
  simp only [readOther, hopen, hclose, plain, isBlank_of_isAlphanum hc,
    isIdentifierChar_of_isAlphanum hc, Bool.false_eq_true, if_false, if_true]

/-- A character of code that is no bracket changes nothing but what stands in front. -/
theorem resumes_step (h : r.InCode) (hc : Harmless r.markup c) (ho : Bracket.ofOpener? c = none)
    (hcl : Bracket.ofCloser? c = none) (next : Option Char) : Resumes r (r.step c next) := by
  obtain ⟨offset, location, code, he⟩ := h.step_harmless hc next
  rw [he, readOther, ho, hcl]
  dsimp only
  rw [plain]
  split
  · exact ⟨rfl, rfl, rfl, rfl, rfl⟩
  · split <;> exact ⟨rfl, rfl, rfl, rfl, rfl⟩

/-- Brackets that fit leave the reader as they found it, if the text between them does. -/
theorem resumes_enclosed (h : r.InCode) (bracket : Bracket) {cs rest : List Char}
    (hcs : ∀ r' : Reader, r'.InCode → r'.inWord = false → r'.markup = r.markup →
      Resumes r' (r'.through cs (bracket.closer :: rest))) :
    Resumes r (r.through (bracket.opener :: (cs ++ [bracket.closer])) rest) := by
  obtain ⟨offset, location, code, hopen⟩ :=
    h.step_opener bracket (cs ++ [bracket.closer] ++ rest).head?
  have hinner := hcs { r with
    stack := ⟨.bracket bracket, r.location⟩ :: r.stack
    inWord := false, previous := some bracket.opener, offset, location, code } h rfl rfl
  obtain ⟨_, _, _, hclose⟩ := (hinner.inCode h).step_closer hinner.stack rest.head?
  rw [through, hopen, through_append, List.singleton_append, through, List.nil_append, hclose]
  exact ⟨hinner.markup, hinner.mode, hinner.skip, rfl, hinner.fault⟩

end InCode

/-! ### Faults -/

/-- The first fault stays. -/
theorem fault_step {fault : Fault} (h : r.fault = some fault) (c : Char) (next : Option Char) :
    (r.step c next).fault = some fault := by
  by_cases hc : r.Closes c
  · obtain ⟨bracket, hb⟩ := hc.2.1
    obtain ⟨-, hfault, -, -⟩ := step_of_closes hc hb next
    rw [hfault, h, Option.some_or]
  · exact (notes_step hc next).fault.trans h

theorem fault_through {fault : Fault} (h : r.fault = some fault) (front rest : List Char) :
    (r.through front rest).fault = some fault := by
  induction front generalizing r with
  | nil => exact h
  | cons c front ih => exact ih (fault_step h c _)

end Reader

/-- The reader has read the whole source. -/
theorem ofSource_eq (source : List Char) (markup : Bool) :
    CodeMap.ofSource source markup = (readerAt markup source []).finish := by
  have happend := Reader.run_append { markup } source []
  rw [List.append_nil] at happend
  rw [CodeMap.ofSource, happend]
  rfl

/-- A fault that was found on the way is that of the source. -/
theorem fault_ofSource {markup : Bool} {front rest : List Char} {fault : Fault}
    (h : (readerAt markup front rest).fault = some fault) :
    (CodeMap.ofSource (front ++ rest) markup).fault = some fault := by
  have hrest : (readerAt markup (front ++ rest) []).fault = some fault := by
    rw [readerAt_append, List.append_nil]
    exact Reader.fault_through h rest []
  rw [ofSource_eq, Reader.fault_finish, hrest]
  rfl

/-- A source has no fault if its reader ends in code with nothing open. -/
theorem fault_ofSource_eq_none {markup : Bool} {source : List Char}
    (h : Reader.Resumes { markup } (readerAt markup source [])) :
    (CodeMap.ofSource source markup).fault = none := by
  rw [ofSource_eq, Reader.fault_finish, Reader.unterminated?, Reader.unclosed?, h.fault, h.mode,
    h.stack]
  rfl

/-- A character that its step does not mark is no code. -/
theorem isCode_eq_false {markup : Bool} {front rest : List Char} {c : Char}
    (h : ((readerAt markup front (c :: rest)).step c rest.head?).code =
      (readerAt markup front (c :: rest)).code) :
    (CodeMap.ofSource (front ++ c :: rest) markup).isCode (byteLength front) = false := by
  let r := readerAt markup front (c :: rest)
  have hr : Reader.Ordered r.code r.offset := Reader.ordered_through ⟨.nil, by simp⟩ front _
  have ho : r.offset = byteLength front := (Reader.offset_through _ _ _).trans (Nat.zero_add _)
  refine Bool.eq_false_iff.mpr fun hcode => ?_
  rw [isCode_ofSource_iff] at hcode
  change Reader.Covers (r.step c rest.head?).code (byteLength front) at hcode
  rw [h, ← ho] at hcode
  exact hr.not_covers hcode

end LivePreview.Source
