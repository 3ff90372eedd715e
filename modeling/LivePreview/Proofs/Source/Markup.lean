import LivePreview.Proofs.Source.Exit
import LivePreview.Proofs.Source.Bracket

/-!
# Well-formed markup

A grammar of elements. A reader that comes to an element where one may begin leaves it as it found
it: in the mode that it was in, with nothing more open and no fault. It marks neither child text nor
attribute strings as code.
-/
namespace LivePreview.Source

open LivePreview.Text

/-! ### The grammar -/

/-- A character of markup. The characters of child text and of attribute strings are literal. -/
structure Glyph where
  char : Char
  literal : Bool
deriving DecidableEq

def textOf (glyphs : List Glyph) : List Char := glyphs.map Glyph.char

def tokens (cs : List Char) : List Glyph := cs.map (⟨·, false⟩)

def literals (cs : List Char) : List Glyph := cs.map (⟨·, true⟩)

inductive Symbol where
  | element
  | attributes
  | children
  | expression

/-- One or more letters. -/
def IsName (cs : List Char) : Prop := cs ≠ [] ∧ cs.all Char.isAlpha = true

/-- The characters of an expression that is no element. -/
def isExpressionChar (c : Char) : Bool := c.isAlpha || c == ' ' || isBracket c

inductive Derives : Symbol → List Glyph → Prop
  | selfClosed {name : List Char} {attributes : List Glyph} (hn : IsName name)
      (ha : Derives .attributes attributes) :
      Derives .element (tokens ('<' :: name) ++ attributes ++ tokens ['/', '>'])
  | paired {name closing : List Char} {attributes children : List Glyph} (hn : IsName name)
      (ha : Derives .attributes attributes) (hc : Derives .children children)
      (hclosing : IsName closing) :
      Derives .element (tokens ('<' :: name) ++ attributes ++ tokens ['>'] ++ children ++
        tokens ('<' :: '/' :: closing ++ ['>']))
  | fragment {children : List Glyph} (hc : Derives .children children) :
      Derives .element (tokens ['<', '>'] ++ children ++ tokens ['<', '/', '>'])
  | noAttribute : Derives .attributes []
  | string {name value : List Char} {attributes : List Glyph} (hn : IsName name)
      (hv : '"' ∉ value) (ha : Derives .attributes attributes) :
      Derives .attributes (tokens (' ' :: name ++ ['=']) ++ literals ('"' :: value ++ ['"']) ++
        attributes)
  | value {name : List Char} {expression attributes : List Glyph} (hn : IsName name)
      (he : Derives .expression expression) (ha : Derives .attributes attributes) :
      Derives .attributes (tokens (' ' :: name ++ ['=']) ++
        (tokens ['{'] ++ expression ++ tokens ['}']) ++ attributes)
  | noChild : Derives .children []
  | text {cs : List Char} {children : List Glyph} (hless : '<' ∉ cs) (hbrace : '{' ∉ cs)
      (hc : Derives .children children) : Derives .children (literals cs ++ children)
  | braced {expression children : List Glyph} (he : Derives .expression expression)
      (hc : Derives .children children) :
      Derives .children (tokens ['{'] ++ expression ++ tokens ['}'] ++ children)
  | nested {element children : List Glyph} (he : Derives .element element)
      (hc : Derives .children children) : Derives .children (element ++ children)
  | balanced {cs : List Char} (hcs : cs.all isExpressionChar = true)
      (hb : Balanced (brackets cs)) : Derives .expression (tokens cs)
  | element {element : List Glyph} (he : Derives .element element) : Derives .expression element

section Texts

variable (cs : List Char) (glyphs glyphs' : List Glyph)

@[simp] theorem textOf_cons (g : Glyph) : textOf (g :: glyphs) = g.char :: textOf glyphs := rfl

@[simp] theorem textOf_append : textOf (glyphs ++ glyphs') = textOf glyphs ++ textOf glyphs' :=
  List.map_append

@[simp] theorem textOf_tokens : textOf (tokens cs) = cs := by
  simp [textOf, tokens, Function.comp_def]

theorem literals_append (cs' : List Char) : literals (cs ++ cs') = literals cs ++ literals cs' :=
  List.map_append

end Texts

namespace Reader

/-! ### Readers of markup -/

/-- How many elements are open behind a tag. -/
def depthBehind (tag : Tag) : Nat :=
  if tag.closing then tag.depth - 1 else if tag.selfClosing then tag.depth else tag.depth + 1

variable {r : Reader} {c : Char} {next : Option Char} {mode mode' : Mode}
  {stack stack' : List OpenConstruct}

/-- Where a reader stands that has found no fault. -/
structure Stands (r : Reader) (mode : Mode) (stack : List OpenConstruct) : Prop where
  markup : r.markup = true
  mode : r.mode = mode
  skip : r.skip = false
  stack : r.stack = stack
  fault : r.fault = none

/-- No literal character is marked. -/
def Hides (r : Reader) (rest : List Char) : List Glyph → Prop
  | [] => True
  | g :: glyphs =>
    let next := (textOf glyphs ++ rest).head?
    (g.literal = true → (r.step g.char next).code = r.code) ∧ (r.step g.char next).Hides rest glyphs

/-- What becomes of a reader over a part of the markup. -/
structure Reads (r : Reader) (glyphs : List Glyph) (rest : List Char) (mode : Mode)
    (stack : List OpenConstruct) : Prop where
  stands : (r.through (textOf glyphs) rest).Stands mode stack
  hides : r.Hides rest glyphs

theorem hides_append {rest : List Char} {glyphs glyphs' : List Glyph} :
    r.Hides rest (glyphs ++ glyphs') ↔ r.Hides (textOf glyphs' ++ rest) glyphs ∧
      (r.through (textOf glyphs) (textOf glyphs' ++ rest)).Hides rest glyphs' := by
  induction glyphs generalizing r with
  | nil => exact (iff_of_eq (true_and _)).symm
  | cons g glyphs ih =>
    rw [List.cons_append, Hides, Hides, ih, textOf_append, List.append_assoc, and_assoc]
    rfl

theorem hides_tokens (r : Reader) (cs rest : List Char) : r.Hides rest (tokens cs) := by
  induction cs generalizing r with
  | nil => trivial
  | cons c cs ih => exact ⟨(fun h => by cases h), ih _⟩

theorem Hides.code_eq {rest : List Char} {front back : List Glyph} {g : Glyph}
    (h : r.Hides rest (front ++ g :: back)) (hg : g.literal = true) :
    ((r.through (textOf front) (g.char :: (textOf back ++ rest))).step g.char
      (textOf back ++ rest).head?).code =
      (r.through (textOf front) (g.char :: (textOf back ++ rest))).code :=
  (hides_append.mp h).2.1 hg

theorem Reads.append {rest : List Char} {glyphs glyphs' : List Glyph}
    (h : r.Reads glyphs (textOf glyphs' ++ rest) mode stack)
    (h' : (r.through (textOf glyphs) (textOf glyphs' ++ rest)).Reads glyphs' rest mode' stack') :
    r.Reads (glyphs ++ glyphs') rest mode' stack' where
  stands := by
    rw [textOf_append, through_append]
    exact h'.stands
  hides := hides_append.mpr ⟨h.hides, h'.hides⟩

theorem Reads.of_tokens {cs rest : List Char} (h : (r.through cs rest).Stands mode stack) :
    r.Reads (tokens cs) rest mode stack :=
  ⟨by rwa [textOf_tokens], r.hides_tokens cs rest⟩

/-- Where the reading of a character leads, a step leads. -/
theorem stands_step (hs : r.skip = false)
    (h : ({ r with inWord := false }.readMode c next r.inWord).Stands mode stack) :
    (r.step c next).Stands mode stack := by
  obtain ⟨offset, location, he⟩ := step_eq hs c next
  rw [he]
  exact ⟨h.markup, h.mode, h.skip, h.stack, h.fault⟩

/-! ### Single characters of markup -/

/-- How many elements are open around a place outside tags. -/
inductive Outer : Mode → Nat → Prop
  | code : Outer .code 0
  | text (depth : Nat) : Outer (.text (depth + 1)) (depth + 1)

/-- The `<` of an element in code. -/
theorem readCode_less {d : Char} (hm : r.markup = true) (hs : r.expressionMayStart = true)
    (hd : (isAlphabetic d || d == '>') = true) (continuesWord : Bool) :
    ∃ code, r.readCode '<' (some d) continuesWord =
      { r with code, mode := .tag ⟨0, false, false, true⟩ } := by
  obtain ⟨code, hmark⟩ := r.markCode_eq '<'
  have htag : '<' = '<' ∧ r.markup = true ∧ Reader.expressionMayStart { r with code } = true ∧
      (some d).any (fun d => isAlphabetic d || d == '>') = true := ⟨rfl, hm, hs, hd⟩
  refine ⟨code, ?_⟩
  rw [readCode, hmark]
  dsimp only
  rw [if_neg (by simp), if_neg (by simp), if_neg (by simp), if_neg (by simp), if_neg (by simp),
    if_pos htag]

namespace Stands

/-- An opening `<`. -/
theorem step_less {depth : Nat} {d : Char} (h : r.Stands mode stack) (hm : Outer mode depth)
    (hstart : mode = .code → r.expressionMayStart = true) (hd : d.isAlpha = true ∨ d = '>') :
    ∃ root, (r.step '<' (some d)).Stands (.tag ⟨depth, false, false, root⟩) stack := by
  cases hm with
  | code =>
    have hnext : (isAlphabetic d || d == '>') = true := by
      rcases hd with hd | rfl
      · rw [isAlphabetic_of_isAlpha hd, Bool.true_or]
      · decide
    obtain ⟨code, hread⟩ :=
      readCode_less (r := { r with inWord := false }) h.markup (hstart rfl) hnext r.inWord
    refine ⟨true, stands_step h.skip ?_⟩
    rw [readMode_code (r := { r with inWord := false }) h.mode, hread]
    exact ⟨h.markup, rfl, h.skip, h.stack, h.fault⟩
  | text depth =>
    have hslash : some d ≠ some '/' := by
      intro he
      obtain rfl := Option.some.inj he
      revert hd
      decide
    refine ⟨false, stands_step h.skip ?_⟩
    simp only [readMode, h.mode, hslash, decide_false, if_true]
    exact ⟨h.markup, rfl, rfl, h.stack, h.fault⟩

/-- A letter, a blank or an equals sign of a tag. -/
theorem step_tag {tag : Tag} (h : r.Stands (.tag tag) stack) (ht : tag.selfClosing = false)
    (hc : c.isAlpha = true ∨ c = ' ' ∨ c = '=') (next : Option Char) :
    (r.step c next).Stands (.tag tag) stack := by
  have hkeep : { tag with selfClosing := false } = tag := by rw [← ht]
  have hread : ∀ r : Reader, r.readTag tag c next = r ∨
      r.readTag tag c next = { r with mode := .tag tag } := by
    intro r
    rcases hc with hc | rfl | rfl
    · have hother : c ≠ '>' ∧ c ≠ '/' ∧ c ≠ '{' ∧ c ≠ '"' ∧ c ≠ '\'' := by
        refine ⟨?_, ?_, ?_, ?_, ?_⟩ <;> rintro rfl <;> cases hc
      obtain ⟨hgreater, hslash, hbrace, hdouble, hsingle⟩ := hother
      have hc := isAlphanum_of_isAlpha hc
      simp only [readTag, hgreater, hslash, hbrace, hdouble, hsingle, or_self,
        isBlank_of_isAlphanum hc, isIdentifierChar_of_isAlphanum hc, Bool.true_or, hkeep,
        Bool.false_eq_true, if_false, if_true, or_true]
    · exact .inl rfl
    · exact .inr (by rw [← hkeep]; rfl)
  refine stands_step h.skip ?_
  rw [readMode_tag (r := { r with inWord := false }) h.mode]
  rcases hread { r with inWord := false } with he | he
  · rw [he]
    exact ⟨h.markup, h.mode, h.skip, h.stack, h.fault⟩
  · rw [he]
    exact ⟨h.markup, rfl, h.skip, h.stack, h.fault⟩

theorem through_tag {tag : Tag} {cs : List Char} (h : r.Stands (.tag tag) stack)
    (ht : tag.selfClosing = false) (hcs : ∀ c ∈ cs, c.isAlpha = true ∨ c = ' ' ∨ c = '=')
    (rest : List Char) : (r.through cs rest).Stands (.tag tag) stack := by
  induction cs generalizing r with
  | nil => exact h
  | cons c cs ih =>
    obtain ⟨hc, hcs⟩ := List.forall_mem_cons.mp hcs
    exact ih (h.step_tag ht hc _) hcs

theorem step_slash {tag : Tag} (h : r.Stands (.tag tag) stack) (next : Option Char) :
    (r.step '/' next).Stands (.tag { tag with selfClosing := true }) stack := by
  obtain ⟨_, _, _, _, _, _, _, _, _, _, _⟩ := r
  obtain ⟨rfl, rfl, rfl, rfl, rfl⟩ := h
  exact ⟨rfl, rfl, rfl, rfl, rfl⟩

/-- The `>` of a tag. -/
theorem step_greater {tag : Tag} (h : r.Stands (.tag tag) stack)
    (hm : Outer mode (depthBehind tag)) (next : Option Char) :
    (r.step '>' next).Stands mode stack := by
  refine stands_step h.skip ?_
  rw [readMode_tag (r := { r with inWord := false }) h.mode, readTag, if_pos rfl, endTag]
  change (if depthBehind tag = 0 then
    { r with inWord := false, mode := .code, previous := some completeValue }
    else { r with inWord := false, mode := .text (depthBehind tag) } : Reader).Stands mode stack
  generalize depthBehind tag = depth at hm
  cases hm with
  | code => exact ⟨h.markup, rfl, h.skip, h.stack, h.fault⟩
  | text depth => exact ⟨h.markup, rfl, h.skip, h.stack, h.fault⟩

/-- The `</` of a closing tag. -/
theorem through_less_slash {depth : Nat} (h : r.Stands (.text depth) stack)
    (rest : List Char) :
    (r.through ['<', '/'] rest).Stands (.tag ⟨depth, true, false, false⟩) stack := by
  obtain ⟨_, _, _, _, _, _, _, _, _, _, _⟩ := r
  obtain ⟨rfl, rfl, rfl, rfl, rfl⟩ := h
  exact ⟨rfl, rfl, rfl, rfl, rfl⟩

/-- The quotes of an attribute string and its characters. -/
theorem step_string {tag : Tag} (h : r.Stands (.tag tag) stack) (next : Option Char) :
    (r.step '"' next).Stands (.attribute '"' tag) stack ∧ (r.step '"' next).code = r.code := by
  obtain ⟨_, _, _, _, _, _, _, _, _, _, _⟩ := r
  obtain ⟨rfl, rfl, rfl, rfl, rfl⟩ := h
  exact ⟨⟨rfl, rfl, rfl, rfl, rfl⟩, rfl⟩

theorem step_closing_quote {tag : Tag} (h : r.Stands (.attribute '"' tag) stack)
    (ht : tag.selfClosing = false) (next : Option Char) :
    (r.step '"' next).Stands (.tag tag) stack ∧ (r.step '"' next).code = r.code := by
  have hkeep : { tag with selfClosing := false } = tag := by rw [← ht]
  obtain ⟨_, _, _, _, _, _, _, _, _, _, _⟩ := r
  obtain ⟨rfl, rfl, rfl, rfl, rfl⟩ := h
  exact ⟨⟨rfl, congrArg Mode.tag hkeep, rfl, rfl, rfl⟩, rfl⟩

theorem step_in_string {tag : Tag} (h : r.Stands (.attribute '"' tag) stack) (hc : c ≠ '"')
    (next : Option Char) :
    (r.step c next).Stands (.attribute '"' tag) stack ∧ (r.step c next).code = r.code := by
  obtain ⟨_, _, _, _, _, _, _, _, _, _, _⟩ := r
  obtain ⟨rfl, rfl, rfl, rfl, rfl⟩ := h
  simp only [step, readMode, hc, if_false]
  exact ⟨⟨rfl, rfl, rfl, rfl, rfl⟩, rfl⟩

theorem step_text {depth : Nat} (h : r.Stands (.text depth) stack) (hc : c ≠ '<' ∧ c ≠ '{')
    (next : Option Char) :
    (r.step c next).Stands (.text depth) stack ∧ (r.step c next).code = r.code := by
  obtain ⟨_, _, _, _, _, _, _, _, _, _, _⟩ := r
  obtain ⟨rfl, rfl, rfl, rfl, rfl⟩ := h
  simp only [step, readMode, hc.1, hc.2, if_false]
  exact ⟨⟨rfl, rfl, rfl, rfl, rfl⟩, rfl⟩

end Stands

/-! ### Expressions in braces -/

/-- Where an expression in braces stands, and what its brace opens. -/
inductive Hosts : Mode → Construct → Prop
  | tag (tag : Tag) (h : tag.selfClosing = false) : Hosts (.tag tag) (.attributeExpression tag)
  | text (depth : Nat) : Hosts (.text depth) (.childExpression depth)

theorem Stands.step_open_brace {construct : Construct} (h : r.Stands mode stack)
    (hh : Hosts mode construct) (next : Option Char) :
    ∃ openedAt, (r.step '{' next).Stands .code (⟨construct, openedAt⟩ :: stack) ∧
      (r.step '{' next).expressionMayStart = true := by
  obtain ⟨_, _, _, _, _, _, _, _, location, _, _⟩ := r
  obtain ⟨rfl, rfl, rfl, rfl, rfl⟩ := h
  refine ⟨location, ?_⟩
  cases hh with
  | tag tag ht =>
    have hkeep : { tag with selfClosing := false } = tag := by rw [← ht]
    refine ⟨⟨rfl, rfl, rfl, ?_, rfl⟩, rfl⟩
    exact congrArg (fun tag => OpenConstruct.mk (.attributeExpression tag) location :: _) hkeep
  | text depth => exact ⟨⟨rfl, rfl, rfl, rfl, rfl⟩, rfl⟩

theorem Stands.step_close_brace {construct : Construct} {openedAt : Location}
    (h : r.Stands .code (⟨construct, openedAt⟩ :: stack)) (hh : Hosts mode construct)
    (next : Option Char) : (r.step '}' next).Stands mode stack := by
  obtain ⟨code, he⟩ := readCode_closer { r with inWord := false } .curly next r.inWord
  refine stands_step h.skip ?_
  rw [readMode_code (r := { r with inWord := false }) h.mode]
  change (readCode { r with inWord := false } Bracket.curly.closer next r.inWord).Stands mode stack
  rw [he, close]
  simp only [h.stack]
  cases hh with
  | tag tag ht => exact ⟨h.markup, rfl, h.skip, rfl, h.fault⟩
  | text depth => exact ⟨h.markup, rfl, h.skip, rfl, h.fault⟩

/-! ### Parts of an element -/

theorem Stands.reads_empty_opening {depth : Nat} (h : r.Stands mode stack) (hm : Outer mode depth)
    (hstart : mode = .code → r.expressionMayStart = true) (rest : List Char) :
    r.Reads (tokens ['<', '>']) rest (.text (depth + 1)) stack := by
  obtain ⟨root, hless⟩ := h.step_less hm hstart (.inr rfl)
  exact .of_tokens (hless.step_greater (.text depth) rest.head?)

theorem Stands.reads_closing {depth : Nat} {name : List Char}
    (h : r.Stands (.text (depth + 1)) stack) (hm : Outer mode depth)
    (hn : name.all Char.isAlpha = true) (rest : List Char) :
    r.Reads (tokens ('<' :: '/' :: name ++ ['>'])) rest mode stack := by
  have hless := h.through_less_slash (name ++ ['>'] ++ rest)
  have hname := hless.through_tag rfl
    (fun c hc => .inl (List.all_eq_true.mp hn c hc)) ('>' :: rest)
  have hgreater := hname.step_greater hm rest.head?
  refine .of_tokens ?_
  change (r.through (['<', '/'] ++ (name ++ ['>'])) rest).Stands mode stack
  rw [through_append, through_append]
  exact hgreater

/-- The name of an attribute. -/
theorem Stands.reads_attribute {tag : Tag} {name : List Char} (h : r.Stands (.tag tag) stack)
    (ht : tag.selfClosing = false) (hn : IsName name) (rest : List Char) :
    r.Reads (tokens (' ' :: name ++ ['='])) rest (.tag tag) stack := by
  refine .of_tokens (h.through_tag ht (fun c hc => ?_) rest)
  simp only [List.cons_append, List.mem_cons, List.mem_append, List.not_mem_nil, or_false] at hc
  rcases hc with rfl | hc | rfl
  · exact .inr (.inl rfl)
  · exact .inl (List.all_eq_true.mp hn.2 c hc)
  · exact .inr (.inr rfl)

theorem Reads.of_literal {rest : List Char}
    (h : (r.step c rest.head?).Stands mode stack ∧ (r.step c rest.head?).code = r.code) :
    r.Reads (literals [c]) rest mode stack :=
  ⟨h.1, fun _ => h.2, trivial⟩

/-- Literal characters that leave the reader where it stands. -/
theorem Stands.reads_literals {cs : List Char} (h : r.Stands mode stack)
    (hcs : ∀ c ∈ cs, ∀ r : Reader, r.Stands mode stack → ∀ next,
      (r.step c next).Stands mode stack ∧ (r.step c next).code = r.code) (rest : List Char) :
    r.Reads (literals cs) rest mode stack := by
  induction cs generalizing r with
  | nil => exact ⟨h, trivial⟩
  | cons c cs ih =>
    obtain ⟨hc, hcs⟩ := List.forall_mem_cons.mp hcs
    have hfirst : r.Reads (literals [c]) (textOf (literals cs) ++ rest) mode stack :=
      .of_literal (hc r h _)
    exact hfirst.append (ih hfirst.stands hcs)

theorem Stands.reads_opening {depth : Nat} {name : List Char} (h : r.Stands mode stack)
    (hm : Outer mode depth) (hstart : mode = .code → r.expressionMayStart = true)
    (hn : IsName name) (rest : List Char) :
    ∃ root, r.Reads (tokens ('<' :: name)) rest (.tag ⟨depth, false, false, root⟩) stack := by
  obtain ⟨hne, hletters⟩ := hn
  have hletters := List.all_eq_true.mp hletters
  obtain ⟨d, name, rfl⟩ := List.exists_cons_of_ne_nil hne
  obtain ⟨root, hless⟩ := h.step_less hm hstart (.inl (hletters d List.mem_cons_self))
  have hname := hless.through_tag rfl (fun c hc => .inl (hletters c hc)) rest
  exact ⟨root, .of_tokens hname⟩

theorem Stands.reads_string {tag : Tag} {value : List Char} (h : r.Stands (.tag tag) stack)
    (ht : tag.selfClosing = false) (hv : '"' ∉ value) (rest : List Char) :
    r.Reads (literals ('"' :: value ++ ['"'])) rest (.tag tag) stack := by
  have hquote : ∀ c ∈ value, c ≠ '"' := fun c hc he => hv (he ▸ hc)
  have hopen : r.Reads (literals ['"'])
      (textOf (literals value) ++ (textOf (literals ['"']) ++ rest)) (.attribute '"' tag) stack :=
    .of_literal (h.step_string _)
  have hvalue := hopen.append (hopen.stands.reads_literals
    (fun c hc r hr next => hr.step_in_string (hquote c hc) next) _)
  have hall := hvalue.append (.of_literal (hvalue.stands.step_closing_quote ht _))
  rwa [← literals_append, ← literals_append] at hall

/-- An expression in braces, if the expression leaves a reader of code where it stands. -/
theorem Stands.reads_braced {construct : Construct} {expression : List Glyph}
    (h : r.Stands mode stack) (hh : Hosts mode construct)
    (he : ∀ (r : Reader) stack, r.Stands .code stack → r.expressionMayStart = true →
      ∀ rest, r.Reads expression rest .code stack) (rest : List Char) :
    r.Reads (tokens ['{'] ++ expression ++ tokens ['}']) rest mode stack := by
  obtain ⟨openedAt, hopen, hstart⟩ :=
    h.step_open_brace hh (textOf expression ++ (textOf (tokens ['}']) ++ rest)).head?
  have hbrace : r.Reads (tokens ['{']) (textOf expression ++ (textOf (tokens ['}']) ++ rest)) .code
      (⟨construct, openedAt⟩ :: stack) := .of_tokens hopen
  have hinside := hbrace.append (he _ _ hopen hstart _)
  exact hinside.append (.of_tokens (hinside.stands.step_close_brace hh _))

theorem harmless_of_isExpressionChar (hc : isExpressionChar c = true) : Harmless true c := by
  have hne : ∀ d, isExpressionChar d = false → c ≠ d := by
    rintro _ hd rfl
    exact Bool.false_ne_true (hd.symm.trans hc)
  refine ⟨?_, fun he => absurd he (hne '<' (by decide))⟩
  simp only [List.mem_cons, List.not_mem_nil, or_false, not_or]
  exact ⟨hne '/' (by decide), hne '\'' (by decide), hne '"' (by decide), hne '\x60' (by decide)⟩

theorem Stands.reads_balanced {cs : List Char} (h : r.Stands .code stack)
    (hcs : cs.all isExpressionChar = true) (hb : Balanced (brackets cs)) (rest : List Char) :
    r.Reads (tokens cs) rest .code stack := by
  have hharmless : ∀ c ∈ cs, Harmless true c := fun c hc =>
    harmless_of_isExpressionChar (List.all_eq_true.mp hcs c hc)
  have hr := Passes.of_balanced hb hharmless r ⟨h.skip, h.mode⟩ h.markup rest
  exact .of_tokens ⟨hr.markup.trans h.markup, hr.mode.trans h.mode, hr.skip.trans h.skip,
    hr.stack.trans h.stack, hr.fault.trans h.fault⟩

end Reader

/-- Where a symbol is read. -/
def Symbol.Within (r : Reader) (mode : Mode) : Symbol → Prop
  | element => (∃ depth, Reader.Outer mode depth) ∧ (mode = .code → r.expressionMayStart = true)
  | attributes => ∃ tag, mode = .tag tag ∧ tag.selfClosing = false
  | children => ∃ depth, mode = .text (depth + 1)
  | expression => mode = .code ∧ r.expressionMayStart = true

/-- Whatever the grammar derives leaves a reader where it stands. -/
theorem Derives.reads {symbol : Symbol} {glyphs : List Glyph} (h : Derives symbol glyphs)
    {r : Reader} {mode : Mode} {stack : List OpenConstruct} (hs : r.Stands mode stack)
    (hw : symbol.Within r mode) (rest : List Char) : r.Reads glyphs rest mode stack := by
  -- The rest is general, since a part of a symbol has the other parts of the symbol behind it.
  induction h generalizing r mode stack rest with
  | @selfClosed name attributes hn _ ih =>
    obtain ⟨⟨depth, hm⟩, hstart⟩ := hw
    obtain ⟨root, hopen⟩ :=
      hs.reads_opening hm hstart hn (textOf attributes ++ (textOf (tokens ['/', '>']) ++ rest))
    have hfront := hopen.append (ih hopen.stands ⟨_, rfl, rfl⟩ _)
    exact hfront.append (.of_tokens ((hfront.stands.step_slash _).step_greater hm _))
  | @paired name closing attributes children hn _ _ hclosing iha ihc =>
    obtain ⟨⟨depth, hm⟩, hstart⟩ := hw
    obtain ⟨root, hopen⟩ := hs.reads_opening hm hstart hn (textOf attributes ++
      (textOf (tokens ['>']) ++
        (textOf children ++ (textOf (tokens ('<' :: '/' :: closing ++ ['>'])) ++ rest))))
    have hfront := hopen.append (iha hopen.stands ⟨_, rfl, rfl⟩ _)
    -- The tag puts one more element around the children. Its counterpart takes it away again.
    have htag := hfront.append (.of_tokens (hfront.stands.step_greater (.text depth) _))
    have hinside := htag.append (ihc htag.stands ⟨depth, rfl⟩ _)
    exact hinside.append (hinside.stands.reads_closing hm hclosing.2 rest)
  | @fragment children _ ih =>
    obtain ⟨⟨depth, hm⟩, hstart⟩ := hw
    have hopen := hs.reads_empty_opening hm hstart
      (textOf children ++ (textOf (tokens ['<', '/', '>']) ++ rest))
    have hinside := hopen.append (ih hopen.stands ⟨depth, rfl⟩ _)
    have hnameless : [].all Char.isAlpha = true := rfl
    exact hinside.append (hinside.stands.reads_closing hm hnameless rest)
  | noAttribute => exact ⟨hs, trivial⟩
  | @string name value attributes hn hv _ ih =>
    obtain ⟨tag, rfl, ht⟩ := hw
    have hname := hs.reads_attribute ht hn (textOf (literals ('"' :: value ++ ['"'])) ++
      (textOf attributes ++ rest))
    have hfront := hname.append (hname.stands.reads_string ht hv _)
    exact hfront.append (ih hfront.stands ⟨tag, rfl, ht⟩ rest)
  | @value name expression attributes hn _ _ ihe iha =>
    obtain ⟨tag, rfl, ht⟩ := hw
    have hname := hs.reads_attribute ht hn (textOf (tokens ['{'] ++ expression ++ tokens ['}']) ++
      (textOf attributes ++ rest))
    have hfront := hname.append (hname.stands.reads_braced (.tag tag ht)
      (fun r stack hr hstart => ihe hr ⟨rfl, hstart⟩) _)
    exact hfront.append (iha hfront.stands ⟨tag, rfl, ht⟩ rest)
  | noChild => exact ⟨hs, trivial⟩
  | @text cs children hless hbrace _ ih =>
    obtain ⟨depth, rfl⟩ := hw
    have hplain : ∀ c ∈ cs, c ≠ '<' ∧ c ≠ '{' := fun c hc =>
      ⟨fun he => hless (he ▸ hc), fun he => hbrace (he ▸ hc)⟩
    have hfront := hs.reads_literals (fun c hc r hr => hr.step_text (hplain c hc))
      (textOf children ++ rest)
    exact hfront.append (ih hfront.stands ⟨depth, rfl⟩ rest)
  | @braced expression children _ _ ihe ihc =>
    obtain ⟨depth, rfl⟩ := hw
    have hfront := hs.reads_braced (.text _)
      (fun r stack hr hstart => ihe hr ⟨rfl, hstart⟩) (textOf children ++ rest)
    exact hfront.append (ihc hfront.stands ⟨depth, rfl⟩ rest)
  | @nested element children _ _ ihe ihc =>
    obtain ⟨depth, rfl⟩ := hw
    have hfront := ihe hs ⟨⟨_, .text depth⟩, fun he => by cases he⟩ (textOf children ++ rest)
    exact hfront.append (ihc hfront.stands ⟨depth, rfl⟩ rest)
  | balanced hcs hb =>
    obtain ⟨rfl, -⟩ := hw
    exact hs.reads_balanced hcs hb rest
  | element _ ih =>
    obtain ⟨rfl, hstart⟩ := hw
    exact ih hs ⟨⟨0, .code⟩, fun _ => hstart⟩ rest

/-- An element has no fault. Its text and its strings are not code, and what follows it is code. -/
theorem codeMap_of_element {glyphs : List Glyph} (h : Derives .element glyphs) :
    (CodeMap.ofSource (textOf glyphs) true).fault = none ∧
      (∀ rest front g back, glyphs = front ++ g :: back → g.literal = true →
        (CodeMap.ofSource (textOf glyphs ++ rest) true).isCode (byteLength (textOf front)) =
          false) ∧
      ∀ c rest, (CodeMap.ofSource (textOf glyphs ++ c :: rest) true).isCode
        (byteLength (textOf glyphs)) = true := by
  have hreads : ∀ rest, ({ markup := true } : Reader).Reads glyphs rest .code [] :=
    h.reads ⟨rfl, rfl, rfl, rfl, rfl⟩ ⟨⟨0, .code⟩, fun _ => rfl⟩
  refine ⟨?_, ?_, fun c rest => ?_⟩
  · have hs := (hreads []).stands
    exact fault_ofSource_eq_none ⟨hs.markup, hs.mode, hs.skip, hs.stack, hs.fault⟩
  · rintro rest front g back rfl hg
    rw [textOf_append, textOf_cons, List.append_assoc, List.cons_append]
    exact isCode_eq_false ((hreads rest).hides.code_eq hg)
  · have hs := (hreads (c :: rest)).stands
    exact isCode_of_inCode ⟨hs.skip, hs.mode⟩

/-- Neither the apostrophe nor the brackets that stand in strings and in text open anything. -/
theorem codeMap_of_element_of_apostrophe :
    ∃ glyphs, Derives .element glyphs ∧
      textOf glyphs = "<p a=\"\x7b<\" b=\x7bf(x)\x7d>it's ) \x7b<b/>\x7d<></></p>".toList ∧
      (CodeMap.ofSource (textOf glyphs) true).fault = none ∧
      (CodeMap.ofSource (textOf glyphs ++ ['x']) true).isCode (byteLength (textOf glyphs)) =
        true := by
  have hattributes := @Derives.string ['a'] ['\x7b', '<'] _ ⟨by decide, by decide⟩ (by decide)
    (@Derives.value ['b'] _ _ ⟨by decide, by decide⟩
      (@Derives.balanced ['f', '(', 'x', ')'] (by decide) (.enclosed .round .nil)) .noAttribute)
  have hbraced := @Derives.braced _ _
    (.element (@Derives.selfClosed ['b'] _ ⟨by decide, by decide⟩ .noAttribute))
    (.nested (.fragment .noChild) .noChild)
  have hchildren := @Derives.text ['i', 't', '\'', 's', ' ', ')', ' '] _ (by decide)
    (by decide) hbraced
  have helement := @Derives.paired ['p'] ['p'] _ _ ⟨by decide, by decide⟩ hattributes hchildren
    ⟨by decide, by decide⟩
  obtain ⟨hfault, -, hbehind⟩ := codeMap_of_element helement
  exact ⟨_, helement, by decide +kernel, hfault, hbehind 'x' []⟩

end LivePreview.Source
