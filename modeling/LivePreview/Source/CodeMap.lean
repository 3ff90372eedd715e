import LivePreview.Source.Dialect
import LivePreview.Text.CharClass
import LivePreview.Text.Location

/-!
# Code maps

What one pass over a script finds out: which byte ranges are code, as opposed to comments, string,
template and regex literals and markup text, and the first bracket that does not fit.

Quotes, `/` and `<` open a literal or an element only where an expression may start, so that
apostrophes in markup text and divisions are left alone.
-/
namespace LivePreview.Source

open LivePreview.Text

/-- The three pairs of brackets that have to balance. -/
inductive Bracket where
  | round
  | square
  | curly
deriving DecidableEq, Repr

namespace Bracket

def opener : Bracket → Char
  | round => '('
  | square => '['
  | curly => '{'

def closer : Bracket → Char
  | round => ')'
  | square => ']'
  | curly => '}'

def ofOpener? (c : Char) : Option Bracket :=
  if c = '(' then some round else if c = '[' then some square
  else if c = '{' then some curly else none

def ofCloser? (c : Char) : Option Bracket :=
  if c = ')' then some round else if c = ']' then some square
  else if c = '}' then some curly else none

end Bracket

/-- A markup tag being read. -/
structure Tag where
  /-- Elements open around the tag. -/
  depth : Nat
  closing : Bool
  selfClosing : Bool
  /-- The tag was met in code, and may still turn out to be a comparison or a type parameter. -/
  root : Bool
deriving DecidableEq, Repr

/-- Everything that stays open until its closer is found. -/
inductive Construct where
  | bracket (bracket : Bracket)
  | template
  | substitution
  | attributeExpression (tag : Tag)
  | childExpression (depth : Nat)
deriving DecidableEq, Repr

namespace Construct

def opener : Construct → String
  | bracket b => b.opener.toString
  | template => "\x60"
  | substitution => "$\x7b"
  | attributeExpression _ | childExpression _ => "\x7b"

def closer : Construct → Char
  | bracket b => b.closer
  | template => '\x60'
  | substitution | attributeExpression _ | childExpression _ => '}'

end Construct

/-- Why a script is refused. -/
inductive Defect where
  | mismatched (innermost : Construct) (openedAt : Location) (found : Char)
  | unexpected (found : Char)
  | unterminatedComment
  | unterminatedTemplate
  | unclosed (innermost : Construct)
deriving DecidableEq, Repr

namespace Defect

def message : Defect → String
  | mismatched innermost openedAt found =>
    "Expected '" ++ innermost.closer.toString ++ "' to close '" ++ innermost.opener ++
      "' opened at " ++ openedAt.render ++ " but found '" ++ found.toString ++ "'"
  | unexpected found => "Unexpected '" ++ found.toString ++ "'"
  | unterminatedComment => "Unterminated block comment"
  | unterminatedTemplate => "Unterminated template literal"
  | unclosed innermost => "Unclosed '" ++ innermost.opener ++ "'"

end Defect

/-- A defect and where it was noticed. -/
structure Fault where
  defect : Defect
  location : Option Location
deriving DecidableEq, Repr

structure CodeMap where
  /-- The code ranges in source order; neighbours do not touch. -/
  code : List Span
  /-- The first fault met. -/
  fault : Option Fault
deriving Repr

/-- The first range that ends behind the offset decides whether the offset is code. -/
def CodeMap.isCode (map : CodeMap) (offset : Nat) : Bool :=
  (map.code.dropWhile fun span => span.stop ≤ offset).head?.any (·.contains offset)

/-- A character of identifiers. -/
def isIdentifierChar (c : Char) : Bool := isAlphanumeric c || c == '_' || c == '$'

/-- Words after which a quote, `/` or `<` starts an expression and does not continue one. -/
def expressionKeywords : List String :=
  ["return", "from", "import", "case", "typeof", "in", "of", "export", "default", "else", "yield",
   "await", "throw"]

/-- Which part of the source the next character belongs to. -/
inductive Mode where
  | code
  | lineComment
  | blockComment (openedAt : Location)
  | quoted (quote : Char)
  | template
  | regex (inClass : Bool)
  | tag (tag : Tag)
  | attribute (quote : Char) (tag : Tag)
  | text (depth : Nat)
deriving DecidableEq, Repr

/-- A construct still open, with the location of its opener. -/
structure OpenConstruct where
  construct : Construct
  openedAt : Location
deriving DecidableEq, Repr

/-- The state of the pass between two characters. -/
structure Reader where
  markup : Bool
  mode : Mode := .code
  /-- Open constructs, the innermost first. -/
  stack : List OpenConstruct := []
  /-- The last character of code that was no white space. -/
  previous : Option Char := none
  /-- The last identifier or keyword read in code. -/
  word : String := ""
  inWord : Bool := false
  /-- The next character belongs to the one before it. -/
  skip : Bool := false
  offset : Nat := 0
  location : Location := .first
  /-- Code ranges, the last one first. -/
  code : List Span := []
  fault : Option Fault := none
deriving Repr

namespace Reader

/-- Stands for a value that just ended, as a closing bracket does. -/
def completeValue : Char := ')'

/-- Only the first fault is kept. -/
def fail (r : Reader) (defect : Defect) (location : Option Location) : Reader :=
  if r.fault.isSome then r else { r with fault := some ⟨defect, location⟩ }

def push (r : Reader) (construct : Construct) : Reader :=
  { r with stack := ⟨construct, r.location⟩ :: r.stack }

/-- Marks `c`, which stands at the current offset, as code. -/
def markCode (r : Reader) (c : Char) : Reader :=
  let stop := r.offset + c.utf8Size
  match r.code with
  | last :: rest =>
    if last.stop = r.offset then { r with code := ⟨last.start, stop⟩ :: rest }
    else { r with code := ⟨r.offset, stop⟩ :: last :: rest }
  | [] => { r with code := [⟨r.offset, stop⟩] }

/-- An expression may start at the beginning, after a keyword that asks for one and after anything
that ends no value. -/
def expressionMayStart (r : Reader) : Bool :=
  match r.previous with
  | none => true
  | some c =>
    if isIdentifierChar c then r.word ∈ expressionKeywords
    else c ∉ [')', ']', '}', '\'', '"', '\x60']

/-- A closing bracket ends the innermost construct, whether or not it fits. -/
def close (r : Reader) (bracket : Bracket) : Reader :=
  match r.stack with
  | [] => r.fail (.unexpected bracket.closer) (some r.location)
  | top :: rest =>
    let r := { r with stack := rest }
    let mismatch :=
      r.fail (.mismatched top.construct top.openedAt bracket.closer) (some r.location)
    match top.construct, bracket with
    | .substitution, .curly => { r with mode := .template }
    | .attributeExpression tag, .curly => { r with mode := .tag tag }
    | .childExpression depth, .curly => { r with mode := .text depth }
    | .bracket opened, _ => if opened = bracket then r else mismatch
    | _, _ => mismatch

/-- A character of code that opens nothing. -/
def plain (r : Reader) (c : Char) (continuesWord : Bool) : Reader :=
  if isBlank c then r
  else if isIdentifierChar c then
    { r with
      word := (if continuesWord then r.word else "").push c
      inWord := true
      previous := some c }
  else { r with previous := some c }

/-- Reads `c` as code; `next` is the character behind it. -/
def readCode (r : Reader) (c : Char) (next : Option Char) (continuesWord : Bool) : Reader :=
  let r := r.markCode c
  if c = '/' ∧ next = some '/' then { r with mode := .lineComment, skip := true }
  else if c = '/' ∧ next = some '*' then
    { r with mode := .blockComment r.location, skip := true }
  else if c = '/' ∧ r.previous ≠ some '<' ∧ r.expressionMayStart then
    { r with mode := .regex false }
  else if (c = '\'' ∨ c = '"') ∧ r.expressionMayStart then { r with mode := .quoted c }
  else if c = '\x60' then { r.push .template with mode := .template }
  else if c = '<' ∧ r.markup ∧ r.expressionMayStart ∧
      next.any (fun d => isAlphabetic d || d == '>') then
    { r with mode := .tag ⟨0, false, false, true⟩ }
  else if let some bracket := Bracket.ofOpener? c then
    { r.push (.bracket bracket) with previous := some c }
  else if let some bracket := Bracket.ofCloser? c then
    { r.close bracket with previous := some c }
  else r.plain c continuesWord

/-- The `>` of a tag: the pass goes on in the text of the innermost open element, or in code when
none is left. -/
def endTag (r : Reader) (tag : Tag) : Reader :=
  let depth :=
    if tag.closing then tag.depth - 1 else if tag.selfClosing then tag.depth else tag.depth + 1
  if depth = 0 then { r with mode := .code, previous := some completeValue }
  else { r with mode := .text depth }

/-- Reads `c` inside a tag. -/
def readTag (r : Reader) (tag : Tag) (c : Char) (next : Option Char) : Reader :=
  if c = '>' then r.endTag tag
  else if c = '/' then { r with mode := .tag { tag with selfClosing := true } }
  else if c = '{' then
    { r.push (.attributeExpression { tag with selfClosing := false }) with
      mode := .code, previous := some '{' }
  else if c = '"' ∨ c = '\'' then { r with mode := .attribute c tag }
  else if isBlank c then r
  else if isIdentifierChar c || c ∈ ['.', ':', '-', '='] then
    { r with mode := .tag { tag with selfClosing := false } }
  else if tag.root && !tag.closing then
    -- A type parameter list or a comparison after all.
    { r with mode := .code, previous := some '<' }.readCode c next false
  else r

/-- Reads one character in the current mode. -/
def readMode (r : Reader) (c : Char) (next : Option Char) (continuesWord : Bool) : Reader :=
  match r.mode with
  | .code => r.readCode c next continuesWord
  | .lineComment => if c = '\n' then { r with mode := .code } else r
  | .blockComment _ =>
    if c = '*' ∧ next = some '/' then { r with mode := .code, skip := true } else r
  | .quoted quote =>
    if c = '\\' then { r with skip := true }
    else if c = '\n' then { r with mode := .code }
    else if c = quote then { r with mode := .code, previous := some c }
    else r
  | .template =>
    if c = '\\' then { r with skip := true }
    else if c = '\x60' then
      { r with stack := r.stack.tail, mode := .code, previous := some '\x60' }
    else if c = '$' ∧ next = some '{' then
      { r.push .substitution with mode := .code, previous := some '{', skip := true }
    else r
  | .regex inClass =>
    if c = '\\' then { r with skip := true }
    else if c = '\n' then { r with mode := .code }
    else if c = '[' then { r with mode := .regex true }
    else if c = ']' then { r with mode := .regex false }
    else if c = '/' ∧ !inClass then { r with mode := .code, previous := some completeValue }
    else r
  | .tag tag => r.readTag tag c next
  | .attribute quote tag =>
    if c = quote then { r with mode := .tag { tag with selfClosing := false } } else r
  | .text depth =>
    if c = '<' then
      let closing := next = some '/'
      { r with mode := .tag ⟨depth, closing, false, false⟩, skip := closing }
    else if c = '{' then
      { r.push (.childExpression depth) with mode := .code, previous := some '{' }
    else r

/-- Takes in one character; `next` is the one behind it. -/
def step (r : Reader) (c : Char) (next : Option Char) : Reader :=
  let read :=
    if r.skip then { r with skip := false }
    else { r with inWord := false }.readMode c next r.inWord
  { read with offset := r.offset + c.utf8Size, location := r.location.after c }

def run (r : Reader) : List Char → Reader
  | [] => r
  | c :: rest => (r.step c rest.head?).run rest

/-- What is still open at the end of the source is a fault. -/
def finish (r : Reader) : CodeMap :=
  let r :=
    match r.mode with
    | .blockComment openedAt => r.fail .unterminatedComment (some openedAt)
    | .template => r.fail .unterminatedTemplate (r.stack.head?.map OpenConstruct.openedAt)
    | _ => r
  let r :=
    match r.stack with
    | top :: _ => r.fail (.unclosed top.construct) (some top.openedAt)
    | [] => r
  ⟨r.code.reverse, r.fault⟩

end Reader

/-- Reads a whole source. With `markup` off, `<` is always an operator. -/
def CodeMap.ofSource (source : List Char) (markup : Bool) : CodeMap :=
  (({ markup } : Reader).run source).finish

/-- The first fault of a source under its dialect. -/
def firstFault? (source : String) (dialect : Dialect) : Option Fault :=
  (CodeMap.ofSource source.toList dialect.allowsMarkup).fault

end LivePreview.Source
