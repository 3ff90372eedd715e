import LivePreview.Proofs.Source.Mark

/-!
# Readers that go on alike

What a reader does next does not depend on where it is nor on what it has noted. So two readers that
agree in all else agree behind the same text. Readers that differ in whether an expression may start
agree from the first character on that says so itself.
-/
namespace LivePreview.Source

open LivePreview.Text

/-- The mode without the location of an opener. -/
def Mode.erase : Mode → Mode
  | .blockComment _ => .blockComment .first
  | mode => mode

theorem Mode.eq_or_of_erase_eq {mode mode' : Mode} (h : mode.erase = mode'.erase) :
    mode' = mode ∨ ∃ openedAt openedAt', mode = .blockComment openedAt ∧
      mode' = .blockComment openedAt' := by
  cases mode with
  | blockComment openedAt =>
    cases mode' with
    | blockComment openedAt' => exact .inr ⟨_, _, rfl, rfl⟩
    | _ => cases h
  | _ =>
    left
    cases mode' with
    | blockComment openedAt' => cases h
    | _ => exact h.symm

namespace Reader

/-- The readers differ at most in locations, in what they noted, and in what stands in front. -/
structure Near (r r' : Reader) : Prop where
  markup : r.markup = r'.markup
  mode : r.mode.erase = r'.mode.erase
  stack : r.stack.map (·.construct) = r'.stack.map (·.construct)
  inWord : r.inWord = r'.inWord
  word : r.inWord = true → r.word = r'.word
  skip : r.skip = r'.skip

/-- The readers also agree on the expressions that may start. -/
structure Alike (r r' : Reader) : Prop extends Near r r' where
  start : r.expressionMayStart = r'.expressionMayStart
  comparison : r.previous = some '<' ↔ r'.previous = some '<'

variable {r r' r'' : Reader}

namespace Near

theorem refl (r : Reader) : Near r r := ⟨rfl, rfl, rfl, rfl, fun _ => rfl, rfl⟩

theorem symm (h : Near r r') : Near r' r :=
  ⟨h.markup.symm, h.mode.symm, h.stack.symm, h.inWord.symm,
    fun hw => (h.word (h.inWord.trans hw)).symm, h.skip.symm⟩

theorem trans (h : Near r r') (h' : Near r' r'') : Near r r'' :=
  ⟨h.markup.trans h'.markup, h.mode.trans h'.mode, h.stack.trans h'.stack,
    h.inWord.trans h'.inWord,
    fun hw => (h.word hw).trans (h'.word (h.inWord.symm.trans hw)), h.skip.trans h'.skip⟩

theorem inCode_iff (h : Near r r') : r.InCode ↔ r'.InCode := by
  rw [InCode, InCode, h.skip]
  rcases Mode.eq_or_of_erase_eq h.mode with he | ⟨openedAt, openedAt', hr, hr'⟩
  · rw [he]
  · simp [hr, hr']

theorem ite {p q : Prop} [Decidable p] [Decidable q] (h : p ↔ q) {a a' b b' : Reader}
    (ha : Near a a') (hb : Near b b') :
    Near (if p then a else b) (if q then a' else b') := by
  simp only [h]
  split
  · exact ha
  · exact hb

theorem withMode (h : Near r r') {mode mode' : Mode} (hm : mode.erase = mode'.erase)
    {skip skip' : Bool} (hs : skip = skip') :
    Near { r with mode, skip } { r' with mode := mode', skip := skip' } :=
  ⟨h.markup, hm, h.stack, h.inWord, h.word, hs⟩

theorem push (h : Near r r') (construct : Construct) :
    Near (r.push construct) (r'.push construct) :=
  ⟨h.markup, h.mode, congrArg (construct :: ·) h.stack, h.inWord, h.word, h.skip⟩

theorem fail (r : Reader) (defect : Defect) (location : Option Location) :
    Near (r.fail defect location) r := by
  rw [Reader.fail]
  split <;> exact ⟨rfl, rfl, rfl, rfl, fun _ => rfl, rfl⟩

theorem close (h : Near r r') (bracket : Bracket) : Near (r.close bracket) (r'.close bracket) := by
  have hstack := h.stack
  rw [Reader.close, Reader.close]
  cases hr : r.stack with
  | nil =>
    rw [hr] at hstack
    rw [List.map_eq_nil_iff.mp hstack.symm]
    exact (fail _ _ _).trans (h.trans (fail _ _ _).symm)
  | cons top rest =>
    rw [hr] at hstack
    obtain ⟨top', rest', hr', htop, hrest⟩ := List.map_eq_cons_iff.mp hstack.symm
    rw [hr']
    have hrest' : Near { r with stack := rest } { r' with stack := rest' } :=
      ⟨h.markup, h.mode, hrest.symm, h.inWord, h.word, h.skip⟩
    have hback : ∀ mode : Mode, Near { r with stack := rest, mode } { r' with stack := rest', mode } :=
      fun mode => ⟨h.markup, rfl, hrest.symm, h.inWord, h.word, h.skip⟩
    have hfail : ∀ defect defect' location location', Near
        (Reader.fail { r with stack := rest } defect location)
        (Reader.fail { r' with stack := rest' } defect' location') :=
      fun _ _ _ _ => (fail _ _ _).trans (hrest'.trans (fail _ _ _).symm)
    have htop : top'.construct = top.construct := htop
    dsimp only
    rw [htop]
    cases top.construct with
    | bracket opened => exact ite .rfl hrest' (hfail _ _ _ _)
    | template => exact hfail _ _ _ _
    | substitution =>
      cases bracket with
      | curly => exact hback _
      | _ => exact hfail _ _ _ _
    | attributeExpression tag =>
      cases bracket with
      | curly => exact hback _
      | _ => exact hfail _ _ _ _
    | childExpression depth =>
      cases bracket with
      | curly => exact hback _
      | _ => exact hfail _ _ _ _

/-- What stands in front is the same from now on. -/
theorem settle (h : Near r r') {c : Char} (hc : isIdentifierChar c = false) :
    Alike { r with previous := some c } { r' with previous := some c } where
  toNear := ⟨h.markup, h.mode, h.stack, h.inWord, h.word, h.skip⟩
  start := by simp only [Reader.expressionMayStart, hc, Bool.false_eq_true, if_false]
  comparison := .rfl

end Near

theorem isIdentifierChar_ofOpener? {c : Char} {bracket : Bracket}
    (h : Bracket.ofOpener? c = some bracket) : isIdentifierChar c = false := by
  rw [Bracket.ofOpener?] at h
  repeat' split at h
  case isFalse.isFalse.isFalse => cases h
  all_goals subst c; decide

theorem isIdentifierChar_ofCloser? {c : Char} {bracket : Bracket}
    (h : Bracket.ofCloser? c = some bracket) : isIdentifierChar c = false := by
  rw [Bracket.ofCloser?] at h
  repeat' split at h
  case isFalse.isFalse.isFalse => cases h
  all_goals subst c; decide

theorem markCode_eq (r : Reader) (c : Char) : ∃ code, r.markCode c = { r with code } := by
  rw [markCode]
  split
  · split <;> exact ⟨_, rfl⟩
  · exact ⟨_, rfl⟩

/-- A character of code that opens no literal, comment or element. -/
def readOther (r : Reader) (c : Char) (continuesWord : Bool) : Reader :=
  if let some bracket := Bracket.ofOpener? c then
    { r.push (.bracket bracket) with previous := some c }
  else if let some bracket := Bracket.ofCloser? c then
    { r.close bracket with previous := some c }
  else r.plain c continuesWord

theorem readOther_of_isBlank {c : Char} (h : isBlank c = true) (r : Reader) (continuesWord : Bool) :
    r.readOther c continuesWord = r := by
  have hno : ∀ c' : Char, isBlank c' = false → c ≠ c' := fun c' hc' he => by
    rw [he, hc'] at h
    cases h
  simp [readOther, plain, Bracket.ofOpener?, Bracket.ofCloser?, h,
    hno '(' (by decide), hno '[' (by decide), hno '\x7b' (by decide),
    hno ')' (by decide), hno ']' (by decide), hno '\x7d' (by decide)]

/-! ### The quote of a string -/

/-- A string is ended by a quote. -/
def Sane (r : Reader) : Prop := ∀ quote, r.mode = .quoted quote → isIdentifierChar quote = false

theorem mode_fail (r : Reader) (defect : Defect) (location : Option Location) :
    (r.fail defect location).mode = r.mode := by
  rw [fail]
  split <;> rfl

theorem sane_fail (h : r.Sane) (defect : Defect) (location : Option Location) :
    (r.fail defect location).Sane :=
  fun quote hq => h quote ((mode_fail _ _ _).symm.trans hq)

theorem sane_close (h : r.Sane) (bracket : Bracket) : (r.close bracket).Sane := by
  rw [close]
  split
  · exact sane_fail h _ _
  · have hfail : ∀ stack defect location, (Reader.fail { r with stack } defect location).Sane :=
      fun stack => sane_fail (r := { r with stack }) h
    dsimp only
    split
    · exact fun quote hq => by cases hq
    · exact fun quote hq => by cases hq
    · exact fun quote hq => by cases hq
    · split
      · exact h
      · exact hfail _ _ _
    · exact hfail _ _ _

theorem sane_readCode (h : r.Sane) (c : Char) (next : Option Char) (continuesWord : Bool) :
    (r.readCode c next continuesWord).Sane := by
  obtain ⟨code, hm⟩ := r.markCode_eq c
  have hc : Sane { r with code } := h
  have hp : (Reader.plain { r with code } c continuesWord).Sane := by
    rw [plain]
    repeat' split
    all_goals exact h
  have hquoted : (c = '\'' ∨ c = '"') → Sane { r with code, mode := .quoted c } := by
    intro hq quote he
    obtain rfl := Mode.quoted.inj he
    rcases hq with rfl | rfl <;> decide
  rw [readCode, hm]
  dsimp only
  repeat' split
  all_goals first
    | exact hp
    | exact sane_close hc _
    | exact h
    | exact hquoted (And.left ‹_›)
    | exact fun quote hq => by cases hq

theorem sane_readTag (h : r.Sane) (tag : Tag) (c : Char) (next : Option Char) :
    (r.readTag tag c next).Sane := by
  have hcode : Sane { r with mode := .code, previous := some '<' } := fun quote hq => by cases hq
  rw [readTag, endTag]
  repeat' split
  all_goals first
    | exact sane_readCode hcode _ _ _
    | exact h
    | exact fun quote hq => by cases hq

theorem sane_step (h : r.Sane) (c : Char) (next : Option Char) : (r.step c next).Sane := by
  have hw : Sane { r with inWord := false } := h
  have hread : (Reader.readMode { r with inWord := false } c next r.inWord).Sane := by
    rw [readMode]
    repeat' split
    all_goals first
      | exact sane_readCode hw _ _ _
      | exact sane_readTag hw _ _ _
      | exact h
      | exact fun quote hq => by cases hq
  intro quote hq
  have hmode : (r.step c next).mode = (if r.skip then r else
      Reader.readMode { r with inWord := false } c next r.inWord).mode := by
    rw [step]
    dsimp only
    split <;> rfl
  rw [hmode] at hq
  split at hq
  · exact h quote hq
  · exact hread quote hq

theorem sane_through (h : r.Sane) (front rest : List Char) : (r.through front rest).Sane := by
  induction front generalizing r with
  | nil => exact h
  | cons c front ih => exact ih (sane_step h c _)

/-! ### Single characters -/

/-- Any such character tells by itself what may follow it, unless it is blank. -/
theorem Near.readOther (h : Near r r') {c : Char} (hc : isBlank c = false) {continuesWord : Bool}
    (hw : continuesWord = true → r.word = r'.word) :
    Alike (r.readOther c continuesWord) (r'.readOther c continuesWord) := by
  rw [Reader.readOther, Reader.readOther]
  cases ho : Bracket.ofOpener? c with
  | some bracket => exact (h.push _).settle (isIdentifierChar_ofOpener? ho)
  | none =>
    cases hcl : Bracket.ofCloser? c with
    | some bracket => exact (h.close bracket).settle (isIdentifierChar_ofCloser? hcl)
    | none =>
      rw [Reader.plain, Reader.plain, hc]
      cases hi : isIdentifierChar c with
      | false => exact h.settle hi
      | true =>
        have hword : (if continuesWord then r.word else "") = if continuesWord then r'.word else "" := by
          cases continuesWord with
          | false => rfl
          | true => exact hw rfl
        simp only [Bool.false_eq_true, if_false, if_true, hword]
        exact ⟨⟨h.markup, h.mode, h.stack, rfl, fun _ => rfl, h.skip⟩, rfl, .rfl⟩

namespace Alike

theorem refl (r : Reader) : Alike r r := ⟨.refl r, rfl, .rfl⟩

theorem ite {p q : Prop} [Decidable p] [Decidable q] (h : p ↔ q) {a a' b b' : Reader}
    (ha : Alike a a') (hb : Alike b b') :
    Alike (if p then a else b) (if q then a' else b') := by
  simp only [h]
  split
  · exact ha
  · exact hb

theorem withMode (h : Alike r r') {mode mode' : Mode} (hm : mode.erase = mode'.erase)
    {skip skip' : Bool} (hs : skip = skip') :
    Alike { r with mode, skip } { r' with mode := mode', skip := skip' } :=
  ⟨h.toNear.withMode hm hs, h.start, h.comparison⟩

theorem push (h : Alike r r') (construct : Construct) :
    Alike (r.push construct) (r'.push construct) :=
  ⟨h.toNear.push construct, h.start, h.comparison⟩

theorem readOther (h : Alike r r') (c : Char) {continuesWord : Bool}
    (hw : continuesWord = true → r.word = r'.word) :
    Alike (r.readOther c continuesWord) (r'.readOther c continuesWord) := by
  cases hb : isBlank c with
  | false => exact h.toNear.readOther hb hw
  | true =>
    rw [readOther_of_isBlank hb, readOther_of_isBlank hb]
    exact h

theorem readCode (h : Alike r r') (c : Char) (next : Option Char) {continuesWord : Bool}
    (hw : continuesWord = true → r.word = r'.word) :
    Alike (r.readCode c next continuesWord) (r'.readCode c next continuesWord) := by
  obtain ⟨code, hm⟩ := r.markCode_eq c
  obtain ⟨code', hm'⟩ := r'.markCode_eq c
  have h : Alike { r with code } { r' with code := code' } :=
    ⟨⟨h.markup, h.mode, h.stack, h.inWord, h.word, h.skip⟩, h.start, h.comparison⟩
  rw [Reader.readCode, Reader.readCode, hm, hm']
  dsimp only
  refine ite .rfl (h.withMode rfl rfl) ?_
  refine ite .rfl ?_ ?_
  · exact ⟨⟨h.markup, rfl, h.stack, h.inWord, h.word, rfl⟩, h.start, h.comparison⟩
  refine ite (by simp only [ne_eq, h.comparison, h.start]) (h.withMode rfl h.skip) ?_
  refine ite (by rw [h.start]) (h.withMode rfl h.skip) ?_
  refine ite .rfl ((h.push _).withMode rfl h.skip) ?_
  refine ite (by rw [h.start, h.markup]) (h.withMode rfl h.skip) ?_
  exact h.readOther c hw

theorem endTag (h : Alike r r') (tag : Tag) : Alike (r.endTag tag) (r'.endTag tag) := by
  have hcode : Near { r with mode := .code } { r' with mode := .code } :=
    h.toNear.withMode rfl h.skip
  rw [Reader.endTag, Reader.endTag]
  exact ite .rfl (hcode.settle (by decide)) (h.withMode rfl h.skip)

theorem readTag (h : Alike r r') (tag : Tag) (c : Char) (next : Option Char) :
    Alike (r.readTag tag c next) (r'.readTag tag c next) := by
  have hcode : Near { r with mode := .code } { r' with mode := .code } :=
    h.toNear.withMode rfl h.skip
  have hopen : ∀ construct, Near { r.push construct with mode := .code }
      { r'.push construct with mode := .code } :=
    fun construct => (h.toNear.push construct).withMode rfl h.skip
  rw [Reader.readTag, Reader.readTag]
  refine ite .rfl (h.endTag tag) ?_
  refine ite .rfl (h.withMode rfl h.skip) ?_
  refine ite .rfl ((hopen _).settle (by decide)) ?_
  refine ite .rfl (h.withMode rfl h.skip) ?_
  refine ite .rfl h ?_
  refine ite .rfl (h.withMode rfl h.skip) ?_
  have hcode' := hcode.settle (c := '<') (by decide)
  exact ite .rfl (hcode'.readCode c next fun hw => absurd hw Bool.false_ne_true) h

theorem readMode (h : Alike r r') (hs : r.Sane) (c : Char) (next : Option Char)
    {continuesWord : Bool} (hw : continuesWord = true → r.word = r'.word) :
    Alike (r.readMode c next continuesWord) (r'.readMode c next continuesWord) := by
  have hskip : ∀ mode, Alike { r with mode, skip := true } { r' with mode, skip := true } :=
    fun _ => h.withMode rfl rfl
  have hmode : ∀ mode, Alike { r with mode } { r' with mode } :=
    fun _ => h.withMode rfl h.skip
  have hclosed : ∀ {c}, isIdentifierChar c = false →
      Alike { r with mode := .code, previous := some c }
        { r' with mode := .code, previous := some c } :=
    fun hc => (hmode .code).toNear.settle hc
  have hback : Near { r with stack := r.stack.tail, mode := .code }
      { r' with stack := r'.stack.tail, mode := .code } :=
    ⟨h.markup, rfl, by simp only [List.map_tail, h.stack], h.inWord, h.word, h.skip⟩
  have hopen : ∀ construct skip, Alike
      { r.push construct with mode := .code, previous := some '{', skip }
      { r'.push construct with mode := .code, previous := some '{', skip } := by
    intro construct skip
    have hn : Near { r.push construct with mode := .code, skip }
        { r'.push construct with mode := .code, skip } := (h.toNear.push construct).withMode rfl rfl
    exact hn.settle (by decide)
  have hopen' : ∀ construct, Alike { r.push construct with mode := .code, previous := some '{' }
      { r'.push construct with mode := .code, previous := some '{' } := by
    intro construct
    have hn : Near { r.push construct with mode := .code }
        { r'.push construct with mode := .code } := (h.toNear.push construct).withMode rfl h.skip
    exact hn.settle (by decide)
  rw [Reader.readMode, Reader.readMode]
  rcases Mode.eq_or_of_erase_eq h.mode with he | ⟨openedAt, openedAt', hr, hr'⟩
  · rw [he]
    cases hm : r.mode with
    | code => exact h.readCode c next hw
    | lineComment => exact ite .rfl (hmode _) h
    | blockComment openedAt => exact ite .rfl (hskip _) h
    | quoted quote =>
      have hquote : Alike (if c = quote then { r with mode := .code, previous := some c } else r)
          (if c = quote then { r' with mode := .code, previous := some c } else r') := by
        by_cases hc : c = quote
        · rw [if_pos hc, if_pos hc, hc]
          exact hclosed (hs quote hm)
        · rw [if_neg hc, if_neg hc]
          exact h
      exact ite .rfl (hskip _) (ite .rfl (hmode _) hquote)
    | template =>
      exact ite .rfl (hskip _) (ite .rfl (hback.settle (by decide)) (ite .rfl (hopen _ _) h))
    | regex inClass =>
      exact ite .rfl (hskip _) (ite .rfl (hmode _) (ite .rfl (hmode _) (ite .rfl (hmode _)
        (ite .rfl (hclosed (by decide)) h))))
    | tag tag => exact h.readTag tag c next
    | text depth => exact ite .rfl (h.withMode rfl rfl) (ite .rfl (hopen' _) h)
    | _ => exact ite .rfl (hmode _) h
  · rw [hr, hr']
    exact ite .rfl (hskip _) h

/-- Readers that are alike stay so over the same character. -/
theorem step (h : Alike r r') (hs : r.Sane) (c : Char) (next : Option Char) :
    Alike (r.step c next) (r'.step c next) := by
  have hword : Alike { r with inWord := false } { r' with inWord := false } :=
    ⟨⟨h.markup, h.mode, h.stack, rfl, fun hw => absurd hw Bool.false_ne_true, h.skip⟩, h.start,
      h.comparison⟩
  have hread : Alike
      (if r.skip then { r with skip := false }
        else { r with inWord := false }.readMode c next r.inWord)
      (if r'.skip then { r' with skip := false }
        else { r' with inWord := false }.readMode c next r'.inWord) := by
    refine ite (by rw [h.skip]) (h.withMode h.mode rfl) ?_
    rw [← h.inWord]
    exact hword.readMode hs c next h.word
  exact ⟨⟨hread.markup, hread.mode, hread.stack, hread.inWord, hread.word, hread.skip⟩,
    hread.start, hread.comparison⟩

end Alike

end Reader

end LivePreview.Source
