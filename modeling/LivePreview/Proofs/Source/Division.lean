import LivePreview.Proofs.Source.Exit
import LivePreview.Proofs.Source.Reading

/-!
# Divisions

In arithmetic a slash divides. A reader takes it for the beginning of a regex literal only behind
one of the words that are no keywords everywhere.
-/
namespace LivePreview.Source

open LivePreview.Text

/-! ### Arithmetic -/

/-- The words of the language that are never identifiers. -/
def reservedWords : List String :=
  ["await", "break", "case", "catch", "class", "const", "continue", "debugger", "default", "delete",
   "do", "else", "enum", "export", "extends", "false", "finally", "for", "function", "if", "import",
   "in", "instanceof", "new", "null", "return", "super", "switch", "this", "throw", "true", "try",
   "typeof", "var", "void", "while", "with", "yield"]

/-- A word of ASCII letters that is not reserved. -/
structure IsIdentifier (cs : List Char) : Prop where
  nonempty : cs ≠ []
  letters : cs.all Char.isAlpha = true
  free : String.ofList cs ∉ reservedWords

structure IsDigits (cs : List Char) : Prop where
  nonempty : cs ≠ []
  digits : cs.all Char.isDigit = true

inductive Arithmetic : List Char → Prop
  | identifier {word : List Char} (h : IsIdentifier word) : Arithmetic word
  | member {word property : List Char} (h : IsIdentifier word) (h' : IsIdentifier property) :
      Arithmetic (word ++ '.' :: property)
  | integer {digits : List Char} (h : IsDigits digits) : Arithmetic digits
  | fraction {digits decimals : List Char} (h : IsDigits digits) (h' : IsDigits decimals) :
      Arithmetic (digits ++ '.' :: decimals)
  | enclosed {cs : List Char} (h : Arithmetic cs) : Arithmetic ('(' :: (cs ++ [')']))
  | operation {left right : List Char} {operator : Char} (ho : operator ∈ ['+', '-', '*', '/'])
      (hl : Arithmetic left) (hr : Arithmetic right) :
      Arithmetic (left ++ [' ', operator, ' '] ++ right)

/-! ### Mistaken words -/

/-- The identifiers behind which an expression may start. -/
def mistakenWords : List String := ["from", "of"]

/-- The text ends in no part of a word. -/
def Apart (front : List Char) : Prop := ∀ c ∈ front.getLast?, isIdentifierChar c = false

/-- The last word of the text is mistaken for a keyword. -/
def EndsMistaken (cs : List Char) : Prop :=
  ∃ front, ∃ word ∈ mistakenWords, cs = front ++ word.toList ∧ Apart front

/-- Somewhere in the text such a word is divided. -/
def MistakenDivision (cs : List Char) : Prop :=
  ∃ front back, EndsMistaken front ∧ cs = front ++ ([' ', '/', ' '] ++ back)

theorem mem_mistakenWords {word : String} (hk : word ∈ expressionKeywords)
    (hr : word ∉ reservedWords) : word ∈ mistakenWords := by
  revert hr
  revert word
  decide

theorem apart_nil : Apart [] := fun c hc => by
  rw [List.getLast?_nil] at hc
  cases hc

theorem apart_of_getLast? {front : List Char} {c : Char} (h : front.getLast? = some c)
    (hc : isIdentifierChar c = false) : Apart front := by
  rintro d hd
  obtain rfl := Option.some.inj (h.symm.trans hd)
  exact hc

theorem EndsMistaken.append_left {front cs : List Char} (h : EndsMistaken cs)
    (hf : Apart front) : EndsMistaken (front ++ cs) := by
  obtain ⟨lead, word, hw, rfl, hlead⟩ := h
  refine ⟨front ++ lead, word, hw, (List.append_assoc _ _ _).symm, fun c hc => ?_⟩
  rw [List.getLast?_append] at hc
  rcases Option.or_eq_some_iff.mp hc with hc | ⟨-, hc⟩
  · exact hlead c hc
  · exact hf c hc

theorem MistakenDivision.append_left {front cs : List Char} (h : MistakenDivision cs)
    (hf : Apart front) : MistakenDivision (front ++ cs) := by
  obtain ⟨lead, back, hlead, rfl⟩ := h
  exact ⟨front ++ lead, back, hlead.append_left hf, (List.append_assoc _ _ _).symm⟩

theorem MistakenDivision.append_right {cs : List Char} (h : MistakenDivision cs)
    (rest : List Char) : MistakenDivision (cs ++ rest) := by
  obtain ⟨front, back, hfront, rfl⟩ := h
  exact ⟨front, back ++ rest, hfront, by simp⟩

namespace Reader

variable {r : Reader} {c : Char} {cs cs' rest : List Char}

/-! ### Readers of arithmetic -/

/-- The reader is in code at every character of the text. -/
def AllCode (r : Reader) (rest : List Char) : List Char → Prop
  | [] => True
  | c :: cs => r.InCode ∧ (r.step c (cs ++ rest).head?).AllCode rest cs

theorem allCode_append : r.AllCode rest (cs ++ cs') ↔
    r.AllCode (cs' ++ rest) cs ∧ (r.through cs (cs' ++ rest)).AllCode rest cs' := by
  induction cs generalizing r with
  | nil => exact (iff_of_eq (true_and _)).symm
  | cons c cs ih =>
    rw [List.cons_append, AllCode, AllCode, ih, List.append_assoc, and_assoc]
    rfl

theorem through_concat (r : Reader) (cs : List Char) (c : Char) (rest : List Char) :
    r.through (cs ++ [c]) rest = (r.through cs ([c] ++ rest)).step c rest.head? :=
  r.through_append cs [c] rest

/-- What the reader has read of the word that it is in. -/
def spelled (r : Reader) : List Char := if r.inWord then r.word.toList else []

/-- What becomes of a reader over a part of an expression. -/
structure Divides (r : Reader) (cs rest : List Char) : Prop where
  allCode : r.AllCode rest cs
  resumes : Resumes r (r.through cs rest)

theorem Divides.append (h : r.Divides cs (cs' ++ rest))
    (h' : (r.through cs (cs' ++ rest)).Divides cs' rest) : r.Divides (cs ++ cs') rest where
  allCode := allCode_append.mpr ⟨h.allCode, h'.allCode⟩
  resumes := by
    rw [through_append]
    exact h.resumes.trans h'.resumes

theorem Divides.singleton (h : r.InCode) (hs : Resumes r (r.step c rest.head?)) :
    r.Divides [c] rest :=
  ⟨⟨h, trivial⟩, hs⟩

namespace InCode

/-- Letters and digits go on with the word. -/
theorem through_alphanum (h : r.InCode) (hcs : ∀ c ∈ cs, c.isAlphanum = true)
    (rest : List Char) :
    r.Divides cs rest ∧ (r.through cs rest).spelled = r.spelled ++ cs := by
  induction cs generalizing r with
  | nil => exact ⟨⟨trivial, .refl r⟩, (List.append_nil _).symm⟩
  | cons c cs ih =>
    obtain ⟨hc, hcs⟩ := List.forall_mem_cons.mp hcs
    obtain ⟨offset, location, code, hstep⟩ := h.step_alphanum hc (cs ++ rest).head?
    have hfirst : r.Divides [c] (cs ++ rest) :=
      .singleton h (hstep ▸ ⟨rfl, rfl, rfl, rfl, rfl⟩)
    have hspelled : (r.step c (cs ++ rest).head?).spelled = r.spelled ++ [c] := by
      rw [hstep, spelled, spelled, if_pos rfl, String.toList_push]
      split <;> rfl
    obtain ⟨hback, hword⟩ := ih (hfirst.resumes.inCode h) hcs
    refine ⟨hfirst.append hback, hword.trans ?_⟩
    change (r.step c (cs ++ rest).head?).spelled ++ cs = r.spelled ++ ([c] ++ cs)
    rw [hspelled, List.append_assoc]

theorem previous_through (h : r.InCode) (hne : cs ≠ []) (hcs : ∀ c ∈ cs, c.isAlphanum = true)
    (rest : List Char) : ∃ c, c.isAlphanum = true ∧ (r.through cs rest).previous = some c := by
  obtain ⟨front, c, hconcat⟩ := (List.eq_nil_or_concat' cs).resolve_left hne
  subst hconcat
  obtain ⟨hfront, hc⟩ := List.forall_mem_append.mp hcs
  have hc := hc c List.mem_cons_self
  have hin := (h.through_alphanum hfront ([c] ++ rest)).1.resumes.inCode h
  obtain ⟨offset, location, code, hstep⟩ := hin.step_alphanum hc rest.head?
  refine ⟨c, hc, ?_⟩
  rw [through_concat, hstep]

/-- Behind a word an expression may start if the word asks for one. -/
theorem expressionMayStart_through (h : r.InCode) (hw : r.inWord = false) (hne : cs ≠ [])
    (hcs : ∀ c ∈ cs, c.isAlphanum = true) (rest : List Char) :
    (r.through cs rest).expressionMayStart = decide (String.ofList cs ∈ expressionKeywords) := by
  obtain ⟨hdivides, hspelled⟩ := h.through_alphanum hcs rest
  -- The reader is in a word, since it has spelled one.
  rw [spelled, spelled, hw, if_neg Bool.false_ne_true, List.nil_append] at hspelled
  split at hspelled
  case isFalse => exact absurd hspelled.symm hne
  have hword : (r.through cs rest).word = String.ofList cs := by
    rw [← String.toList_inj, hspelled, String.toList_ofList]
  obtain ⟨c, hc, hprevious⟩ := h.previous_through hne hcs rest
  rw [expressionMayStart, hprevious, hword]
  simp only [isIdentifierChar_of_isAlphanum hc, if_true]

theorem step_dot (h : r.InCode) (next : Option Char) :
    ∃ offset location code, r.step '.' next =
      { r with inWord := false, previous := some '.', offset, location, code } :=
  h.step_harmless ⟨by decide, fun he => by cases he⟩ next

/-- A slash divides behind what ends a value. -/
theorem step_slash (h : r.InCode) (hs : r.expressionMayStart = false) :
    ∃ offset location code, r.step '/' (some ' ') =
      { r with inWord := false, previous := some '/', offset, location, code } := by
  obtain ⟨offset, location, he⟩ := step_eq h.1 '/' (some ' ')
  obtain ⟨code, hm⟩ := ({ r with inWord := false } : Reader).markCode_eq '/'
  have hstart : Reader.expressionMayStart { r with inWord := false, code } = false := hs
  refine ⟨offset, location, code, he.trans ?_⟩
  rw [readMode_code (r := { r with inWord := false }) h.2, readCode, hm]
  dsimp only
  rw [if_neg (by decide), if_neg (by decide), if_neg (by simp [hstart])]
  rfl

/-- An operator, if no slash among them is taken for the beginning of a literal. -/
theorem step_operator (h : r.InCode) (hc : c ∈ ['+', '-', '*', '/'])
    (hs : c = '/' → r.expressionMayStart = false) :
    ∃ offset location code, r.step c (some ' ') =
      { r with inWord := false, previous := some c, offset, location, code } := by
  simp only [List.mem_cons, List.not_mem_nil, or_false] at hc
  rcases hc with rfl | rfl | rfl | rfl
  case inr.inr.inr => exact h.step_slash (hs rfl)
  all_goals exact h.step_harmless ⟨by decide, fun he => by cases he⟩ (some ' ')

end InCode

theorem Divides.dot (h : r.Divides cs (['.'] ++ rest)) (hr : r.InCode) :
    r.Divides (cs ++ ['.']) rest ∧ (r.through (cs ++ ['.']) rest).inWord = false := by
  have hin := h.resumes.inCode hr
  obtain ⟨offset, location, code, hstep⟩ := hin.step_dot rest.head?
  refine ⟨h.append (.singleton hin (hstep ▸ ⟨rfl, rfl, rfl, rfl, rfl⟩)), ?_⟩
  rw [through_concat, hstep]

theorem Divides.blank (h : r.Divides cs ([' '] ++ rest)) (hr : r.InCode) :
    r.Divides (cs ++ [' ']) rest ∧ (r.through (cs ++ [' ']) rest).inWord = false ∧
      (r.through (cs ++ [' ']) rest).expressionMayStart =
        (r.through cs ([' '] ++ rest)).expressionMayStart := by
  have hin := h.resumes.inCode hr
  obtain ⟨offset, location, code, hstep⟩ := hin.step_blank (c := ' ') (by decide) rest.head?
  refine ⟨h.append (.singleton hin (hstep ▸ ⟨rfl, rfl, rfl, rfl, rfl⟩)), ?_⟩
  rw [through_concat, hstep]
  exact ⟨rfl, rfl⟩

theorem Divides.operator (h : r.Divides cs ([' ', c, ' '] ++ rest)) (hr : r.InCode)
    (hc : c ∈ ['+', '-', '*', '/'])
    (hs : c = '/' → (r.through cs ([' ', c, ' '] ++ rest)).expressionMayStart = false) :
    r.Divides (cs ++ [' ', c, ' ']) rest ∧
      (r.through (cs ++ [' ', c, ' ']) rest).inWord = false := by
  have hblank : r.Divides cs ([' '] ++ ([c] ++ ([' '] ++ rest))) := h
  obtain ⟨hfront, -, hstart⟩ := hblank.blank hr
  have hin := hfront.resumes.inCode hr
  obtain ⟨offset, location, code, hstep⟩ := hin.step_operator hc fun he => hstart.trans (hs he)
  have hoperator := hfront.append (.singleton hin (hstep ▸ ⟨rfl, rfl, rfl, rfl, rfl⟩))
  obtain ⟨hall, hword, -⟩ := hoperator.blank hr
  rw [List.append_assoc, List.append_assoc] at hall hword
  exact ⟨hall, hword⟩

theorem divides_enclosed (h : r.InCode)
    (hcs : ∀ r : Reader, r.InCode → r.inWord = false → r.Divides cs ([')'] ++ rest)) :
    r.Divides ('(' :: (cs ++ [')'])) rest ∧
      (r.through ('(' :: (cs ++ [')'])) rest).expressionMayStart = false := by
  obtain ⟨offset, location, code, hopen⟩ := h.step_opener .round (cs ++ [')'] ++ rest).head?
  have hopen : r.step '(' (cs ++ [')'] ++ rest).head? = _ := hopen
  have hinside := hcs (r.step '(' (cs ++ [')'] ++ rest).head?) (hopen ▸ h) (by rw [hopen])
  have hin := hinside.resumes.inCode (hopen ▸ h)
  have hresumes := h.resumes_enclosed .round fun r' hr' hw' _ => (hcs r' hr' hw').resumes
  refine ⟨⟨⟨h, allCode_append.mpr ⟨hinside.allCode, hin, trivial⟩⟩, hresumes⟩, ?_⟩
  obtain ⟨_, _, _, hclose⟩ :=
    hin.step_closer (hinside.resumes.stack.trans (by rw [hopen])) rest.head?
  have hclose : Reader.step _ ')' rest.head? = _ := hclose
  rw [through, through_concat, hclose]
  rfl

end Reader

/-! ### Expressions -/

open Reader

theorem IsIdentifier.divides {word : List Char} (h : IsIdentifier word) {r : Reader}
    (hr : r.InCode) (hw : r.inWord = false) (rest : List Char) :
    r.Divides word rest ∧
      ((r.through word rest).expressionMayStart = true → EndsMistaken word) := by
  have hletters : ∀ c ∈ word, c.isAlphanum = true := fun c hc =>
    isAlphanum_of_isAlpha (List.all_eq_true.mp h.letters c hc)
  refine ⟨(hr.through_alphanum hletters rest).1, fun hs => ?_⟩
  rw [hr.expressionMayStart_through hw h.nonempty hletters, decide_eq_true_eq] at hs
  exact ⟨[], _, mem_mistakenWords hs h.free, String.toList_ofList.symm, apart_nil⟩

theorem IsDigits.divides {digits : List Char} (h : IsDigits digits) {r : Reader}
    (hr : r.InCode) (hw : r.inWord = false) (rest : List Char) :
    r.Divides digits rest ∧ (r.through digits rest).expressionMayStart = false := by
  have hdigits : ∀ c ∈ digits, c.isAlphanum = true := fun c hc => by
    rw [Char.isAlphanum, List.all_eq_true.mp h.digits c hc, Bool.or_true]
  refine ⟨(hr.through_alphanum hdigits rest).1, ?_⟩
  rw [hr.expressionMayStart_through hw h.nonempty hdigits, decide_eq_false_iff_not]
  intro hk
  obtain ⟨c, hc⟩ := List.exists_mem_of_ne_nil _ h.nonempty
  have hno : ∀ word ∈ expressionKeywords, word.toList.any Char.isDigit = false := by decide
  have hno := List.any_eq_false.mp (hno _ hk) c (by rwa [String.toList_ofList])
  exact hno (List.all_eq_true.mp h.digits c hc)

/-- Where no mistaken word is divided, the reader stays in code. Behind the expression an expression
may start only if such a word ends it. -/
theorem Arithmetic.divides {cs : List Char} (h : Arithmetic cs) (hm : ¬ MistakenDivision cs)
    {r : Reader} (hr : r.InCode) (hw : r.inWord = false) (rest : List Char) :
    r.Divides cs rest ∧ ((r.through cs rest).expressionMayStart = true → EndsMistaken cs) := by
  induction h generalizing r rest with
  | identifier h => exact h.divides hr hw rest
  | @member word property h h' =>
    obtain ⟨hfront, hword⟩ := (h.divides hr hw (['.'] ++ (property ++ rest))).1.dot hr
    obtain ⟨hproperty, hend⟩ := h'.divides (hfront.resumes.inCode hr) hword rest
    rw [List.append_cons, through_append]
    have hapart : Apart (word ++ ['.']) := apart_of_getLast? List.getLast?_concat (by decide)
    exact ⟨hfront.append hproperty, fun hs => (hend hs).append_left hapart⟩
  | integer h =>
    obtain ⟨hdigits, hstart⟩ := h.divides hr hw rest
    exact ⟨hdigits, fun hs => absurd (hstart.symm.trans hs) Bool.false_ne_true⟩
  | @fraction digits decimals h h' =>
    obtain ⟨hfront, hword⟩ := (h.divides hr hw (['.'] ++ (decimals ++ rest))).1.dot hr
    obtain ⟨hdecimals, hstart⟩ := h'.divides (hfront.resumes.inCode hr) hword rest
    rw [List.append_cons, through_append]
    exact ⟨hfront.append hdecimals, fun hs => absurd (hstart.symm.trans hs) Bool.false_ne_true⟩
  | @enclosed cs _ ih =>
    have hapart : Apart ['('] := apart_of_getLast? rfl (by decide)
    have hcs : ¬ MistakenDivision cs := fun hcs => hm ((hcs.append_right [')']).append_left hapart)
    obtain ⟨hall, hstart⟩ := divides_enclosed hr fun r hr hw => (ih hcs hr hw ([')'] ++ rest)).1
    exact ⟨hall, fun hs => absurd (hstart.symm.trans hs) Bool.false_ne_true⟩
  | @operation left right operator ho _ _ ihl ihr =>
    have hleft : ¬ MistakenDivision left := fun hl => hm ((hl.append_right _).append_right _)
    have hapart : Apart (left ++ [' ', operator, ' ']) :=
      apart_of_getLast? (by simp) (by decide : isIdentifierChar ' ' = false)
    have hright : ¬ MistakenDivision right := fun hright => hm (hright.append_left hapart)
    obtain ⟨hl, hend⟩ := ihl hleft hr hw ([' ', operator, ' '] ++ (right ++ rest))
    -- A word in front of the slash that is mistaken would be a mistaken division.
    have hslash : operator = '/' → (r.through left
        ([' ', operator, ' '] ++ (right ++ rest))).expressionMayStart = false := by
      rintro rfl
      refine Bool.eq_false_iff.mpr fun hs => hm ⟨left, right, hend hs, ?_⟩
      exact List.append_assoc _ _ _
    obtain ⟨hfront, hword⟩ := hl.operator hr ho hslash
    obtain ⟨hback, hendr⟩ := ihr hright (hfront.resumes.inCode hr) hword rest
    rw [through_append]
    exact ⟨hfront.append hback, fun hs => (hendr hs).append_left hapart⟩

/-! ### Words -/

namespace Reader

variable {r : Reader} {c : Char}

/-- A reader that comes into a word does so at a character of it. -/
def EntersWord (r a : Reader) (c : Char) : Prop :=
  a.inWord = r.inWord ∨ isIdentifierChar c = true ∧ a.skip = r.skip

theorem inWord_close (r : Reader) (bracket : Bracket) : (r.close bracket).inWord = r.inWord := by
  have hfail : ∀ (r : Reader) defect location, (r.fail defect location).inWord = r.inWord := by
    intro r defect location
    rw [fail]
    split <;> rfl
  rw [close]
  repeat' split
  all_goals first | rfl | exact hfail _ _ _

theorem entersWord_readCode (r : Reader) (c : Char) (next : Option Char) (continuesWord : Bool) :
    EntersWord r (r.readCode c next continuesWord) c := by
  obtain ⟨code, hm⟩ := r.markCode_eq c
  rw [readCode, hm]
  dsimp only
  iterate 7
    split
    · exact .inl rfl
  split
  · exact .inl (inWord_close { r with code } _)
  rw [plain]
  split
  · exact .inl rfl
  split
  · rename_i hc
    exact .inr ⟨hc, rfl⟩
  · exact .inl rfl

theorem entersWord_readMode (r : Reader) (c : Char) (next : Option Char) (continuesWord : Bool) :
    EntersWord r (r.readMode c next continuesWord) c := by
  rw [readMode]
  cases r.mode with
  | code => exact entersWord_readCode r c next continuesWord
  | tag tag =>
    dsimp only
    rw [readTag, endTag]
    dsimp only
    split
    · repeat' split
      all_goals exact .inl rfl
    iterate 5
      split
      · exact .inl rfl
    split
    · exact entersWord_readCode { r with mode := .code, previous := some '<' } c next false
    · exact .inl rfl
  | _ =>
    refine .inl ?_
    dsimp only
    repeat' split
    all_goals rfl

/-- What is no character of a word ends one, and so does what leads to a skipped character. -/
theorem inWord_step (hs : r.skip = true → r.inWord = false) (c : Char) (next : Option Char)
    (h : isIdentifierChar c = false ∨ (r.step c next).skip = true) :
    (r.step c next).inWord = false := by
  by_cases hskip : r.skip = true
  · rw [step, if_pos hskip]
    exact hs hskip
  · have hskip := Bool.eq_false_iff.mpr hskip
    obtain ⟨offset, location, he⟩ := step_eq hskip c next
    rw [he] at h ⊢
    rcases entersWord_readMode { r with inWord := false } c next r.inWord with hr | ⟨hc, hr⟩
    · exact hr
    · rcases h with h | h
      · exact absurd (h.symm.trans hc) Bool.false_ne_true
      · exact absurd ((hr.trans hskip).symm.trans h) Bool.false_ne_true

end Reader

theorem inWord_of_skip {markup : Bool} (front rest : List Char)
    (h : (readerAt markup front rest).skip = true) :
    (readerAt markup front rest).inWord = false := by
  induction front using List.reverseRecOn generalizing rest with
  | nil => rfl
  | append_singleton front c ih =>
    rw [readerAt_concat] at h ⊢
    exact Reader.inWord_step (ih _) c _ (.inr h)

/-- Behind a text that ends apart from what follows, the reader is in no word. -/
theorem inWord_of_apart (markup : Bool) {front : List Char} (h : Apart front)
    (rest : List Char) :
    (readerAt markup front rest).inWord = false := by
  rcases List.eq_nil_or_concat' front with rfl | ⟨lead, c, rfl⟩
  · rfl
  · rw [readerAt_concat]
    exact Reader.inWord_step (inWord_of_skip lead _) c _ (.inl (h c List.getLast?_concat))

/-- Where an expression may start, a slash begins a literal. -/
theorem Reader.InCode.step_literal {r : Reader} (h : r.InCode) (hs : r.expressionMayStart = true)
    (hp : r.previous ≠ some '<') :
    (r.step '/' (some ' ')).mode = .regex false ∧ (r.step '/' (some ' ')).skip = false := by
  obtain ⟨offset, location, he⟩ := Reader.step_eq h.1 '/' (some ' ')
  obtain ⟨code, hm⟩ := ({ r with inWord := false } : Reader).markCode_eq '/'
  have hstart : Reader.expressionMayStart { r with inWord := false, code } = true := hs
  rw [he, Reader.readMode_code (r := { r with inWord := false }) h.2, Reader.readCode, hm]
  dsimp only
  rw [if_neg (by decide), if_neg (by decide), if_pos ⟨rfl, hp, hstart⟩]
  exact ⟨rfl, h.1⟩

/-- The blank behind such a slash is not marked. -/
theorem code_step_literal {markup : Bool} {front back : List Char}
    (h : (readerAt markup front ([' ', '/', ' '] ++ back)).InCode)
    (hs : (readerAt markup front ([' ', '/', ' '] ++ back)).expressionMayStart = true)
    (hp : (readerAt markup front ([' ', '/', ' '] ++ back)).previous ≠ some '<') :
    ((readerAt markup (front ++ [' ', '/']) (' ' :: back)).step ' ' back.head?).code =
      (readerAt markup (front ++ [' ', '/']) (' ' :: back)).code := by
  let r := readerAt markup front ([' ', '/', ' '] ++ back)
  obtain ⟨offset, location, code, hblank⟩ := h.step_blank (c := ' ') (by decide) (some '/')
  obtain ⟨hmode, hskip⟩ := Reader.InCode.step_literal
    (r := { r with inWord := false, offset, location, code }) h hs hp
  have happend : readerAt markup (front ++ [' ', '/']) (' ' :: back) =
      (r.step ' ' (some '/')).step '/' (some ' ') := readerAt_append _ _ _
  rw [happend, hblank]
  generalize Reader.step _ '/' (some ' ') = literal at hmode hskip
  obtain ⟨_, _, _, _, _, _, _, _, _, _, _⟩ := literal
  subst hmode hskip
  rfl

/-- A slash behind a mistaken word begins a literal, so what is behind it is not code. -/
theorem not_isCode_of_mistakenDivision {cs : List Char} (h : MistakenDivision cs) (markup : Bool) :
    ∃ front c back, cs = front ++ c :: back ∧
      (CodeMap.ofSource cs markup).isCode (byteLength front) = false := by
  obtain ⟨_, back, ⟨lead, word, hword, rfl, hlead⟩, rfl⟩ := h
  have hall : ∀ word ∈ mistakenWords, word ∈ expressionKeywords ∧ word.toList ≠ [] ∧
      word.toList.all Char.isAlphanum = true := by decide
  obtain ⟨hkeyword, hne, hletters⟩ := hall word hword
  have hletters := List.all_eq_true.mp hletters
  obtain ⟨c, letters, hcons⟩ := List.exists_cons_of_ne_nil hne
  by_cases hin : (readerAt markup lead (word.toList ++ ([' ', '/', ' '] ++ back))).InCode
  · -- The reader spells the whole word, so the slash behind it begins a literal.
    refine ⟨lead ++ word.toList ++ [' ', '/'], ' ', back, by simp, ?_⟩
    have hapart := inWord_of_apart markup hlead (word.toList ++ ([' ', '/', ' '] ++ back))
    have hbehind := hin.expressionMayStart_through hapart hne hletters ([' ', '/', ' '] ++ back)
    rw [String.ofList_toList, decide_eq_true hkeyword] at hbehind
    obtain ⟨d, hd, hprevious⟩ := hin.previous_through hne hletters ([' ', '/', ' '] ++ back)
    have hless : (readerAt markup (lead ++ word.toList) ([' ', '/', ' '] ++ back)).previous ≠
        some '<' := by
      rw [readerAt_append, hprevious]
      rintro he
      obtain rfl := Option.some.inj he
      cases hd
    have hall := (hin.through_alphanum hletters ([' ', '/', ' '] ++ back)).1.resumes.inCode hin
    rw [← readerAt_append] at hall hbehind
    have hno := isCode_eq_false (code_step_literal hall hbehind hless)
    rwa [List.append_assoc (lead ++ word.toList)] at hno
  · -- Otherwise the word itself is not code.
    refine ⟨lead, c, letters ++ ([' ', '/', ' '] ++ back), by simp [hcons], ?_⟩
    have hc : Reader.Decisive c := .inl (isIdentifierChar_of_isAlphanum
      (hletters c (hcons ▸ List.mem_cons_self)))
    rw [hcons] at hin ⊢
    rw [List.append_assoc, Bool.eq_false_iff]
    exact fun hcode => hin ((isCode_iff_inCode hc).mp hcode)

/-- A reader finds no fault in an arithmetic expression and takes all of it for code exactly if no
word in it is mistaken for a keyword in front of a division. -/
theorem arithmetic_is_code_iff {cs : List Char} (h : Arithmetic cs) (markup : Bool) :
    ((CodeMap.ofSource cs markup).fault = none ∧ ∀ front c back, cs = front ++ c :: back →
      (CodeMap.ofSource cs markup).isCode (byteLength front) = true) ↔ ¬ MistakenDivision cs := by
  refine ⟨fun ⟨_, hcode⟩ hm => ?_, fun hm => ⟨?_, fun front c back hs => ?_⟩⟩
  · obtain ⟨front, c, back, hs, hno⟩ := not_isCode_of_mistakenDivision hm markup
    rw [hcode front c back hs] at hno
    cases hno
  · have hr := (h.divides hm (r := ({ markup } : Reader)) ⟨rfl, rfl⟩ rfl []).1.resumes
    exact fault_ofSource_eq_none hr
  · subst hs
    have hr := (h.divides hm (r := ({ markup } : Reader)) ⟨rfl, rfl⟩ rfl []).1.allCode
    have hin := (Reader.allCode_append.mp hr).2.1
    rw [List.append_nil] at hin
    exact isCode_of_inCode hin

/-- An operand `from` does no harm where it is not divided. -/
theorem arithmetic_is_code_of_quotient :
    let cs := "(a + 1.5) / b.c - from".toList
    Arithmetic cs ∧ (CodeMap.ofSource cs true).fault = none ∧ ¬ MistakenDivision cs := by
  intro cs
  have ha : IsIdentifier ['a'] := ⟨by decide, by decide, by decide⟩
  have hb : IsIdentifier ['b'] := ⟨by decide, by decide, by decide⟩
  have hc : IsIdentifier ['c'] := ⟨by decide, by decide, by decide⟩
  have hfrom : IsIdentifier ['f', 'r', 'o', 'm'] := ⟨by decide, by decide, by decide⟩
  have hdecimal : Arithmetic ['1', '.', '5'] :=
    @Arithmetic.fraction ['1'] ['5'] ⟨by decide, by decide⟩ ⟨by decide, by decide⟩
  have hsum := @Arithmetic.operation _ _ '+' (by decide) (.identifier ha) hdecimal
  have hquotient := @Arithmetic.operation _ _ '/' (by decide) hsum.enclosed (.member hb hc)
  have harithmetic := @Arithmetic.operation _ _ '-' (by decide) hquotient (.identifier hfrom)
  have hfault : (CodeMap.ofSource cs true).fault = none := by decide +kernel
  have hcode : ∀ n < byteLength cs, (CodeMap.ofSource cs true).isCode n = true := by
    decide +kernel
  refine ⟨harithmetic, hfault, (arithmetic_is_code_iff harithmetic true).mp ⟨hfault, ?_⟩⟩
  intro front c back hs
  refine hcode _ ?_
  have hc := c.utf8Size_pos
  rw [show cs = front ++ c :: back from hs, byteLength_append, byteLength_cons]
  omega

/-- A division of what a property or a variable of such a name holds swallows the bracket behind
it. -/
theorem fault_of_mistaken_word :
    let cs := "(of / n)".toList
    Arithmetic cs ∧ ∀ markup, (CodeMap.ofSource cs markup).fault =
        some ⟨.unclosed (.bracket .round), some ⟨1, 1⟩⟩ ∧
      (CodeMap.ofSource cs markup).isCode 5 = false := by
  intro cs
  have hof : IsIdentifier ['o', 'f'] := ⟨by decide, by decide, by decide⟩
  have hn : IsIdentifier ['n'] := ⟨by decide, by decide, by decide⟩
  have hquotient := @Arithmetic.operation _ _ '/' (by decide) (.identifier hof) (.identifier hn)
  exact ⟨hquotient.enclosed, by decide +kernel⟩

end LivePreview.Source
