import LivePreview.Proofs.Source.Alike

/-!
# Readers that settle

Two readers that differ only in whether an expression may start tell nothing apart in white space
and comments, and they agree behind the first other character, unless it is one that asks whether an
expression may start. Text within a string leaves a reader as it is.
-/
namespace LivePreview.Source.Reader

open LivePreview.Text

variable {r r' : Reader} {c : Char} {next : Option Char}

/-- Only these characters are read together with the one behind them. -/
theorem step_next (hc : c ∉ ['/', '*', '$', '<']) (r : Reader) (next next' : Option Char) :
    r.step c next = r.step c next' := by
  simp only [List.mem_cons, List.not_mem_nil, or_false, not_or] at hc
  obtain ⟨hslash, hstar, hdollar, hless⟩ := hc
  have hcode : ∀ (r : Reader) continuesWord,
      r.readCode c next continuesWord = r.readCode c next' continuesWord := by
    intro r continuesWord
    simp only [readCode, hslash, hless, false_and, if_false]
  have htag : ∀ (r : Reader) tag, r.readTag tag c next = r.readTag tag c next' := by
    intro r tag
    simp only [readTag, hcode]
  have hread : ∀ (r : Reader) continuesWord,
      r.readMode c next continuesWord = r.readMode c next' continuesWord := by
    intro r continuesWord
    simp only [readMode, hcode, htag, hstar, hdollar, hless, false_and, if_false]
  simp only [step, hread]

/-- One step, up to where it leads. -/
theorem step_eq (hs : r.skip = false) (c : Char) (next : Option Char) :
    ∃ offset location, r.step c next =
    { { r with inWord := false }.readMode c next r.inWord with offset, location } := by
  refine ⟨r.offset + c.utf8Size, r.location.after c, ?_⟩
  rw [step, hs]
  rfl

theorem Near.step_of_read (h : Near r r') (hs : r.skip = false)
    (hread : Near ({ r with inWord := false }.readMode c next r.inWord)
      ({ r' with inWord := false }.readMode c next r.inWord)) :
    Near (r.step c next) (r'.step c next) := by
  obtain ⟨offset, location, he⟩ := step_eq hs c next
  obtain ⟨offset', location', he'⟩ := step_eq (h.skip.symm.trans hs) c next
  rw [he, he', ← h.inWord]
  exact ⟨hread.markup, hread.mode, hread.stack, hread.inWord, hread.word, hread.skip⟩

theorem Near.alike_of_read (h : Near r r') (hs : r.skip = false)
    (hread : Alike ({ r with inWord := false }.readMode c next r.inWord)
      ({ r' with inWord := false }.readMode c next r.inWord)) :
    Alike (r.step c next) (r'.step c next) := by
  obtain ⟨offset, location, he⟩ := step_eq hs c next
  obtain ⟨offset', location', he'⟩ := step_eq (h.skip.symm.trans hs) c next
  refine ⟨h.step_of_read hs hread.toNear, ?_, ?_⟩
  · rw [he, he', ← h.inWord]
    exact hread.start
  · rw [he, he', ← h.inWord]
    exact hread.comparison

/-! ### Text within a string -/

theorem step_quoted {quote : Char} (hs : r.skip = false) (hm : r.mode = .quoted quote)
    (hw : r.inWord = false) (hc : c ≠ '\\' ∧ c ≠ '\n' ∧ c ≠ quote) (next : Option Char) :
    ∃ offset location, r.step c next = { r with offset, location } := by
  obtain ⟨offset, location, he⟩ := step_eq hs c next
  refine ⟨offset, location, he.trans ?_⟩
  simp only [readMode, hm, hw, hc.1, hc.2.1, hc.2.2, if_false]

/-- The reader goes through plain text in a string and stays what it is. -/
theorem alike_through_quoted {quote : Char} (hs : r.skip = false) (hm : r.mode = .quoted quote)
    (hw : r.inWord = false) {cs : List Char} (hcs : ∀ c ∈ cs, c ≠ '\\' ∧ c ≠ '\n' ∧ c ≠ quote)
    (rest : List Char) : ∃ offset location, r.through cs rest = { r with offset, location } := by
  induction cs generalizing r with
  | nil => exact ⟨r.offset, r.location, rfl⟩
  | cons c cs ih =>
    obtain ⟨hc, hcs⟩ := List.forall_mem_cons.mp hcs
    obtain ⟨offset, location, he⟩ := step_quoted hs hm hw hc (cs ++ rest).head?
    obtain ⟨offset', location', he'⟩ := ih (r := { r with offset, location }) hs hm hw hcs
    refine ⟨offset', location', ?_⟩
    rw [through, he]
    exact he'

/-! ### White space and comments -/

/-- The characters of code that a reader takes for one thing or another by what stands in front of
them, and the one that closes a call. -/
def ambiguous : List Char := ['/', '\'', '"', '\x60', '<', ')']

/-- Behind white space and comments stands none of the ambiguous characters. -/
def settles (r : Reader) : List Char → Bool
  | [] => true
  | c :: rest =>
    let onward := (r.step c rest.head?).settles rest
    if r.skip then onward
    else
      match r.mode with
      | .lineComment | .blockComment _ => onward
      | .code =>
        if isBlank c || c == '/' && (rest.head? == some '/' || rest.head? == some '*') then onward
        else c ∉ ambiguous
      | _ => false

/-- Both readers read the rest in the same way. -/
def Tracks (r r' : Reader) (rest : List Char) : Prop :=
  Alike r r' ∨ Near r r' ∧ r.settles rest = true

theorem Tracks.near {rest : List Char} (h : Tracks r r' rest) : Near r r' :=
  h.elim (·.toNear) (·.1)

theorem readCode_of_not_ambiguous (hc : c ∉ ambiguous) (r : Reader) (next : Option Char)
    (continuesWord : Bool) :
    r.readCode c next continuesWord = (r.markCode c).readOther c continuesWord := by
  simp only [ambiguous, List.mem_cons, List.not_mem_nil, or_false, not_or] at hc
  obtain ⟨hslash, hsingle, hdouble, hgrave, hless, _⟩ := hc
  simp only [readCode, hslash, hsingle, hdouble, hgrave, hless, false_and, or_self, if_false]
  rfl

theorem not_ambiguous_of_isBlank (hb : isBlank c = true) : c ∉ ambiguous := by
  intro hmem
  have hall : ambiguous.all (!isBlank ·) = true := by decide
  have hc := List.all_eq_true.mp hall c hmem
  rw [hb] at hc
  cases hc

/-- Neither white space nor a comment says what stands in front. -/
theorem Near.readCode_onward (h : Near r r') (c : Char) (next : Option Char) (continuesWord : Bool)
    (hc : isBlank c = true ∨ c = '/' ∧ (next = some '/' ∨ next = some '*')) :
    Near (r.readCode c next continuesWord) (r'.readCode c next continuesWord) := by
  obtain ⟨code, hm⟩ := r.markCode_eq c
  obtain ⟨code', hm'⟩ := r'.markCode_eq c
  have h : Near { r with code } { r' with code := code' } :=
    ⟨h.markup, h.mode, h.stack, h.inWord, h.word, h.skip⟩
  rcases hc with hb | ⟨rfl, rfl | rfl⟩
  · rw [readCode_of_not_ambiguous (not_ambiguous_of_isBlank hb),
      readCode_of_not_ambiguous (not_ambiguous_of_isBlank hb), readOther_of_isBlank hb,
      readOther_of_isBlank hb, hm, hm']
    exact h
  · simp only [readCode, hm, hm', and_self, if_true]
    exact ⟨h.markup, rfl, h.stack, h.inWord, h.word, rfl⟩
  · simp only [readCode, hm, hm', and_self, if_true]
    exact ⟨h.markup, rfl, h.stack, h.inWord, h.word, rfl⟩

/-- Any other character that is not ambiguous says what may follow it. -/
theorem Near.readCode_settle (h : Near r r') (hc : c ∉ ambiguous) (hb : isBlank c = false)
    (next : Option Char) {continuesWord : Bool} (hw : continuesWord = true → r.word = r'.word) :
    Alike (r.readCode c next continuesWord) (r'.readCode c next continuesWord) := by
  obtain ⟨code, hm⟩ := r.markCode_eq c
  obtain ⟨code', hm'⟩ := r'.markCode_eq c
  have h : Near { r with code } { r' with code := code' } :=
    ⟨h.markup, h.mode, h.stack, h.inWord, h.word, h.skip⟩
  rw [readCode_of_not_ambiguous hc, readCode_of_not_ambiguous hc, hm, hm']
  exact h.readOther hb hw

theorem Tracks.step {rest : List Char} (h : Tracks r r' (c :: rest)) (hs : r.Sane) :
    Tracks (r.step c rest.head?) (r'.step c rest.head?) rest := by
  rcases h with h | ⟨h, hsettles⟩
  · exact .inl (h.step hs c _)
  rw [settles] at hsettles
  have hword : Near { r with inWord := false } { r' with inWord := false } :=
    ⟨h.markup, h.mode, h.stack, rfl, fun hw => absurd hw Bool.false_ne_true, h.skip⟩
  by_cases hskip : r.skip = true
  · rw [if_pos hskip] at hsettles
    refine .inr ⟨?_, hsettles⟩
    have hread := h.withMode h.mode (rfl : false = false)
    rw [Reader.step, Reader.step, if_pos hskip, if_pos (h.skip ▸ hskip)]
    exact ⟨hread.markup, hread.mode, hread.stack, hread.inWord, hread.word, hread.skip⟩
  · have hskip : r.skip = false := Bool.eq_false_iff.mpr hskip
    rw [hskip, if_neg (by decide)] at hsettles
    rcases Mode.eq_or_of_erase_eq h.mode with he | ⟨openedAt, openedAt', hm, hm'⟩
    · cases hm : r.mode with
      | lineComment =>
        rw [hm] at hsettles he
        refine .inr ⟨h.step_of_read hskip ?_, hsettles⟩
        simp only [readMode, hm, he]
        exact .ite .rfl (hword.withMode rfl h.skip) (hword.withMode rfl h.skip)
      | blockComment openedAt =>
        rw [hm] at hsettles he
        refine .inr ⟨h.step_of_read hskip ?_, hsettles⟩
        simp only [readMode, hm, he]
        exact .ite .rfl (hword.withMode rfl rfl) (hword.withMode rfl h.skip)
      | code =>
        rw [hm] at hsettles he
        dsimp only at hsettles
        by_cases hc : (isBlank c ||
            c == '/' && (rest.head? == some '/' || rest.head? == some '*')) = true
        · rw [if_pos hc] at hsettles
          refine .inr ⟨h.step_of_read hskip ?_, hsettles⟩
          simp only [readMode, hm, he]
          refine (hword.withMode rfl h.skip).readCode_onward c _ _ ?_
          simpa using hc
        · rw [if_neg hc, decide_eq_true_eq] at hsettles
          refine .inl (h.alike_of_read hskip ?_)
          simp only [readMode, hm, he]
          refine (hword.withMode rfl h.skip).readCode_settle hsettles ?_ _ h.word
          exact Bool.eq_false_iff.mpr fun hb => hc (by rw [hb]; rfl)
      | _ => simp [hm] at hsettles
    · rw [hm] at hsettles
      refine .inr ⟨h.step_of_read hskip ?_, hsettles⟩
      have hcomment : Near { r with inWord := false, mode := .blockComment openedAt }
          { r' with inWord := false, mode := .blockComment openedAt' } :=
        ⟨h.markup, rfl, h.stack, rfl, fun hw => absurd hw Bool.false_ne_true, h.skip⟩
      simp only [readMode, hm, hm']
      exact .ite .rfl (hword.withMode rfl rfl) hcomment

/-! ### Single characters of code -/

/-- White space in code leaves the reader in code. -/
theorem InCode.step_blank (h : r.InCode) (hb : isBlank c = true) (next : Option Char) :
    ∃ offset location code, r.step c next = { r with inWord := false, offset, location, code } := by
  obtain ⟨offset, location, he⟩ := step_eq h.1 c next
  obtain ⟨code, hm⟩ := markCode_eq { r with inWord := false } c
  refine ⟨offset, location, code, he.trans ?_⟩
  simp only [readMode, h.2, readCode_of_not_ambiguous (not_ambiguous_of_isBlank hb),
    readOther_of_isBlank hb]
  simp only [h.2] at hm
  rw [hm]

/-- A quote of code that the reader does not leave in code opens a string. -/
theorem InCode.step_quote (h : r.InCode) (hq : c = '\'' ∨ c = '"')
    (hn : ¬ (r.step c next).InCode) :
    (r.step c next).mode = .quoted c ∧ (r.step c next).skip = false ∧
      (r.step c next).inWord = false := by
  obtain ⟨offset, location, he⟩ := step_eq h.1 c next
  obtain ⟨code, hm⟩ := markCode_eq { r with inWord := false, mode := .code } c
  have hread : ({ r with inWord := false }.readMode c next r.inWord) =
      if r.expressionMayStart then { r with inWord := false, code, mode := .quoted c }
      else { r with inWord := false, code, mode := .code, previous := some c } := by
    have hplain : c ≠ '/' ∧ c ≠ '\x60' ∧ c ≠ '<' ∧ Bracket.ofOpener? c = none ∧
        Bracket.ofCloser? c = none ∧ isBlank c = false ∧ isIdentifierChar c = false := by
      rcases hq with rfl | rfl <;> decide
    obtain ⟨hslash, hgrave, hless, hopen, hclose, hblank, hword⟩ := hplain
    have hstart : Reader.expressionMayStart { r with inWord := false, mode := .code, code } =
        r.expressionMayStart := rfl
    simp only [readMode, h.2, readCode, hm, hslash, hgrave, hless, hopen, hclose, plain, hblank,
      hword, hq, hstart, false_and, true_and, if_false, Bool.false_eq_true]
  rw [he, hread] at hn ⊢
  split at hn
  · rename_i hstart
    rw [if_pos hstart]
    exact ⟨rfl, h.1, rfl⟩
  · exact absurd ⟨h.1, rfl⟩ hn

/-- A quote of code is ambiguous. -/
theorem InCode.settles_quote (h : r.InCode) (hq : c = '\'' ∨ c = '"') (rest : List Char) :
    r.settles (c :: rest) = false := by
  rw [settles, h.1, h.2]
  rcases hq with rfl | rfl <;> rfl

theorem InCode.settles_cons (h : r.InCode) {rest : List Char} (hs : r.settles (c :: rest) = true) :
    isBlank c = true ∧ (r.step c rest.head?).settles rest = true ∨ isBlank c = false ∧ c ≠ ')' := by
  rw [settles, h.1, h.2] at hs
  dsimp only at hs
  cases hb : isBlank c with
  | true =>
    rw [hb] at hs
    exact .inl ⟨rfl, by simpa using hs⟩
  | false =>
    refine .inr ⟨rfl, fun he => ?_⟩
    subst he
    simp [hb, ambiguous] at hs

end LivePreview.Source.Reader
