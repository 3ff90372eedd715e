import LivePreview.Yaml.CharClass
import LivePreview.Yaml.Token

/-!
# From characters to YAML tokens

`Scanner.tokens` reads a whole stream. Whether a node is a mapping key shows only at the colon
behind it, so the scanner remembers where a key could have begun and inserts the tokens for it
later on.
-/
namespace LivePreview.Yaml

/-- A place where a mapping key may have begun. -/
structure KeyMark where
  possible : Bool := false
  /-- The indentation leaves nothing but a key here. -/
  required : Bool := false
  /-- The place of its first token. -/
  token : Nat := 0
  index : Nat := 0
  line : Nat := 0
  column : Nat := 0
deriving Repr

/-- An indentation to return to. -/
structure Indent where
  previous : Int
  /-- A block collection began here and its end has to be marked. -/
  isBlock : Bool
deriving Repr

/-- A pair without braces in a flow sequence. -/
inductive ImplicitPair where
  | possible
  | inside
deriving DecidableEq, Repr

structure Scanner where
  rest : List Char
  index : Nat := 0
  line : Nat := 0
  column : Nat := 0
  /-- Nothing but white space has been met on the line. -/
  leading : Bool := true
  tokens : Array Token := #[]
  /-- A value may follow without a space at this index, behind a quoted key. -/
  adjacentValueAt : Nat := 0
  keyAllowed : Bool := true
  /-- One for each open flow collection and one for the block around them, the innermost first. -/
  keys : List KeyMark := [{}]
  indent : Int := -1
  indents : List Indent := []
  flowLevel : Nat := 0
  inFlowMapping : Bool := false
  implicitPairs : List ImplicitPair := []
deriving Repr

abbrev Scan := StateT Scanner (Except Fault)

namespace Scanner

/-! ### Characters -/

/-- The character `n` places ahead. -/
def ahead (s : Scanner) (n : Nat) : Char := (s.rest[n]?).getD endMark

def current (s : Scanner) : Char := s.ahead 0

/-- Steps over `n` characters of one line. -/
def advance (s : Scanner) (n : Nat) : Scanner :=
  { s with rest := s.rest.drop n, index := s.index + n, column := s.column + n }

/-- Steps over a line break. -/
def overBreak (s : Scanner) : Scanner :=
  let width := if s.current == '\r' && s.ahead 1 == '\n' then 2 else 1
  { s with
    rest := s.rest.drop width
    index := s.index + width
    line := s.line + 1
    column := 0
    leading := true }

/-- A row of three equal characters and a blank behind them, at the cursor. -/
def atMarker (s : Scanner) (c : Char) : Bool :=
  s.current == c && s.ahead 1 == c && s.ahead 2 == c && isSpaceOrEnd (s.ahead 3)

def atDocumentMarker (s : Scanner) : Bool := s.atMarker '-' || s.atMarker '.'

/-- A character that can stand in a plain scalar, given the one behind it. -/
def atPlainChar (s : Scanner) : Bool :=
  let inFlow := s.flowLevel > 0
  let next := s.ahead 1
  if s.current == ':' && (isSpaceOrEnd next || (inFlow && isFlow next)) then false
  else !(inFlow && isFlow s.current)

end Scanner

namespace Scan

open Scanner

def fail (fault : Fault) : Scan α := throw fault

def peek : Scan Char := return (← get).current

def peekAt (n : Nat) : Scan Char := return (← get).ahead n

/-- Steps over white space on the line. -/
def skipSpace (n : Nat := 1) : Scan Unit := modify (·.advance n)

/-- Steps over content. -/
def skip (n : Nat := 1) : Scan Unit := modify fun s => { s.advance n with leading := false }

def skipBreak : Scan Unit := modify overBreak

/-- Steps over the characters of a class and answers them. -/
def takeWhile (p : Char → Bool) : Scan (List Char) := do
  let s ← get
  let taken := s.rest.takeWhile p
  set (s.advance taken.length)
  return taken

def emit (kind : TokenKind) (column : Nat) : Scan Unit :=
  modify fun s => { s with tokens := s.tokens.push ⟨kind, column⟩ }

/-- Inserts a token in front of the one at `place`. -/
def emitAt (place : Nat) (kind : TokenKind) (column : Nat) : Scan Unit :=
  modify fun s => { s with tokens := s.tokens.insertIdxIfInBounds place ⟨kind, column⟩ }

def setKeyAllowed (allowed : Bool) : Scan Unit := modify fun s => { s with keyAllowed := allowed }

/-- What `skipLine` stepped over. -/
structure Blanks where
  tab : Bool
  space : Bool

/-- Steps over spaces, tabs if wanted, and a comment, which white space has to precede. -/
def skipLine (tabs : Bool) : Scan Blanks := do
  let blanks ← takeWhile fun c => c == ' ' || (tabs && c == '\t')
  if (← peek) == '#' then
    if blanks.isEmpty then fail .commentNotSeparated
    discard (takeWhile (!isBreakOrEnd ·))
  return ⟨'\t' ∈ blanks, ' ' ∈ blanks⟩

/-- Steps over white space, line breaks and comments in front of a token. -/
def skipToToken : Nat → Scan Unit
  | 0 => return
  | fuel + 1 => do
    let s ← get
    match s.current with
    | '\t' =>
      if !s.indents.isEmpty && s.leading && (s.column : Int) < s.indent then
        discard (skipLine true)
        if !isBreakOrEnd (← peek) then fail .tabInIndentation
      else skipSpace
      skipToToken fuel
    | ' ' => skipSpace; skipToToken fuel
    | '#' => discard (takeWhile (!isBreakOrEnd ·)); skipToToken fuel
    | c =>
      if isBreak c then
        skipBreak
        if s.flowLevel = 0 then setKeyAllowed true
        skipToToken fuel

/-- More steps than a loop over the rest of the stream can take. -/
def fuel : Scan Nat := return (← get).rest.length + 2

/-! ### Keys and indentation -/

/-- A node may begin a key where it stands. -/
def saveKey : Scan Unit :=
  modify fun s =>
    if s.keyAllowed then
      let required :=
        s.flowLevel = 0 && s.indent == (s.column : Int) &&
          (s.indents.head?.map (·.isBlock)).getD false
      let mark : KeyMark :=
        { possible := true, required, token := s.tokens.size, index := s.index, line := s.line,
          column := s.column }
      { s with keys := mark :: s.keys.tail }
    else s

def clearKey (s : Scanner) : Scanner :=
  match s.keys with
  | [] => s
  | mark :: rest => { s with keys := { mark with possible := false } :: rest }

/-- No key began at the remembered place after all. -/
def removeKey : Scan Unit := do
  let s ← get
  if s.keys.head?.any fun mark => mark.possible && mark.required then fail .missingColon
  set (clearKey s)

/-- Outside flow collections a key ends on its line and within 1024 characters. -/
def dropStaleKeys : Scan Unit := do
  let s ← get
  if s.flowLevel = 0 then
    let stale (mark : KeyMark) : Bool :=
      mark.possible && (mark.line < s.line || mark.index + 1024 < s.index)
    if s.keys.any fun mark => stale mark && mark.required then fail .missingColon
    set { s with
      keys := s.keys.map fun mark => if stale mark then { mark with possible := false } else mark }

/-- Closes the block collections that are indented further than `column`. -/
def unrollIndent (column : Int) : Scan Unit :=
  modify fun s =>
    if s.flowLevel > 0 then s
    else
      let rec close (s : Scanner) : List Indent → Scanner
        | [] => s
        | top :: rest =>
          if s.indent > column then
            let tokens := if top.isBlock then s.tokens.push ⟨.blockEnd, s.column⟩ else s.tokens
            close { s with tokens, indent := top.previous, indents := rest } rest
          else s
      close s s.indents

/-- Content that follows has to be indented by at least one column more. -/
def rollOneColumn : Scan Unit :=
  modify fun s =>
    if s.flowLevel = 0 && s.indents.head?.any (·.isBlock) then
      { s with indents := ⟨s.indent, false⟩ :: s.indents, indent := s.indent + 1 }
    else s

/-- Undoes `rollOneColumn`. -/
def unrollColumns : Scan Unit :=
  modify fun s =>
    let rec close (s : Scanner) : List Indent → Scanner
      | [] => s
      | top :: rest =>
        if top.isBlock then s else close { s with indent := top.previous, indents := rest } rest
    close s s.indents

/-- Opens a block collection at a column that is indented further than the one around it. Its start
goes in front of the token at `place`. -/
def rollIndent (column : Nat) (place : Nat) (kind : TokenKind) : Scan Unit :=
  modify fun s =>
    if s.flowLevel > 0 then s
    else
      let s :=
        match s.indents with
        | top :: rest =>
          if s.indent ≤ (column : Int) && !top.isBlock then
            { s with indent := top.previous, indents := rest }
          else s
        | [] => s
      if s.indent < (column : Int) then
        { s with
          indents := ⟨s.indent, true⟩ :: s.indents
          indent := (column : Int)
          tokens := s.tokens.insertIdxIfInBounds place ⟨kind, column⟩ }
      else s

/-! ### Directives and document markers -/

def directiveNumber : Scan Unit := do
  let digits ← takeWhile Char.isDigit
  if digits.isEmpty || digits.length > 9 then fail .badDirective

/-- The characters that a percent escape stands for. Only one and two bytes make a character. -/
def uriEscape : Scan Char := do
  let byte : Scan Nat := do
    let high ← peekAt 1
    let low ← peekAt 2
    if (← peek) != '%' || !isHexDigit high || !isHexDigit low then fail .badTag
    skip 3
    return 16 * hexValue high + hexValue low
  let first ← byte
  let width := if first < 0x80 then 1 else if first / 32 = 6 then 2 else if first / 16 = 14 then 3
    else if first / 8 = 30 then 4 else 0
  if width = 0 then fail .badTag
  let code ← (List.range (width - 1)).foldlM (fun code _ => do
    let next ← byte
    if next / 64 != 2 then fail .badTag
    return code * 256 + next) first
  match charOf? code with
  | some c => return c
  | none => fail .badTag

/-- The characters of a class, with percent escapes resolved. -/
def uriText (p : Char → Bool) : Nat → Scan (List Char)
  | 0 => return []
  | fuel + 1 => do
    let c ← peek
    if !p c then return []
    let c ← if c == '%' then uriEscape else do skip; pure c
    return c :: (← uriText p fuel)

/-- A tag handle, which begins with an exclamation mark. -/
def tagHandle (inDirective : Bool) : Scan String := do
  if (← peek) != '!' then fail .badTag
  skip
  let name ← takeWhile isHandleChar
  if (← peek) == '!' then
    skip
    return String.ofList ('!' :: name ++ ['!'])
  else if inDirective && !name.isEmpty then fail .badTag
  else return String.ofList ('!' :: name)

/-- The prefix that a directive gives to a tag handle. -/
def tagPrefix : Scan String := do
  let c ← peek
  let first ←
    if c == '!' then do skip; pure '!'
    else if !isTagChar c then fail .badTag
    else if c == '%' then uriEscape
    else do skip; pure c
  return String.ofList (first :: (← uriText isUriChar (← fuel)))

def fetchDirective : Scan Unit := do
  unrollIndent (-1)
  removeKey
  setKeyAllowed false
  let column := (← get).column
  skip
  let name ← takeWhile isHandleChar
  if name.isEmpty || !isSpaceOrEnd (← peek) then fail .badDirective
  let kind : TokenKind ←
    match String.ofList name with
    | "YAML" => do
      discard (takeWhile isSpace)
      directiveNumber
      if (← peek) != '.' then fail .badDirective
      skip
      directiveNumber
      pure .versionDirective
    | "TAG" => do
      discard (takeWhile isSpace)
      let handle ← tagHandle true
      discard (takeWhile isSpace)
      let tagPrefix ← tagPrefix
      if !isSpaceOrEnd (← peek) then fail .badDirective
      pure (.tagDirective handle tagPrefix)
    | _ => do
      discard (takeWhile (!isBreakOrEnd ·))
      pure .reservedDirective
  discard (skipLine true)
  let c ← peek
  if !isBreakOrEnd c then fail .badDirective
  if isBreak c then skipBreak
  emit kind column

def fetchDocumentMarker (kind : TokenKind) : Scan Unit := do
  if (← get).flowLevel > 0 then fail .badDocumentMarker
  unrollIndent (-1)
  removeKey
  setKeyAllowed false
  let column := (← get).column
  skip 3
  emit kind column

/-! ### Flow collections -/

/-- Ends a pair without braces. -/
def endImplicitPair : Scan Unit := do
  let s ← get
  match s.implicitPairs with
  | .inside :: rest =>
    set { s with inFlowMapping := false, implicitPairs := .possible :: rest }
    emit .flowMappingEnd s.column
  | _ => return

def fetchFlowStart (kind : TokenKind) : Scan Unit := do
  saveKey
  rollOneColumn
  let s ← get
  let opensMapping := kind == TokenKind.flowMappingStart
  if s.flowLevel ≥ 255 then fail .tooDeep
  set { s with
    keys := {} :: s.keys
    flowLevel := s.flowLevel + 1
    keyAllowed := true
    inFlowMapping := s.inFlowMapping || opensMapping
    implicitPairs := if opensMapping then s.implicitPairs else .possible :: s.implicitPairs }
  skip
  discard (skipLine true)
  emit kind s.column

/-- The end of a flow collection. One that nothing was opened for is left to the node layer. -/
def fetchFlowEnd (kind : TokenKind) : Scan Unit := do
  removeKey
  modify fun s =>
    if s.flowLevel = 0 then { s with keyAllowed := false }
    else { s with flowLevel := s.flowLevel - 1, keys := s.keys.tail, keyAllowed := false }
  if kind == .flowSequenceEnd then
    endImplicitPair
    modify fun s => { s with implicitPairs := s.implicitPairs.tail }
  let column := (← get).column
  skip
  discard (skipLine true)
  modify fun s => if s.flowLevel > 0 then { s with adjacentValueAt := s.index } else s
  emit kind column

def fetchFlowEntry : Scan Unit := do
  removeKey
  setKeyAllowed true
  endImplicitPair
  let column := (← get).column
  skip
  discard (skipLine true)
  emit .flowEntry column

/-! ### Block collections -/

def fetchBlockEntry : Scan Unit := do
  let s ← get
  if s.flowLevel > 0 || !s.keyAllowed then fail .misplacedEntry
  if let some ⟨kind, column⟩ := s.tokens.back? then
    let isProperty := match kind with
      | .anchor _ | .tag _ _ => true
      | _ => false
    if isProperty && s.column = 0 && column = 0 && s.indent > -1 then fail .badIndentation
  skip
  rollIndent s.column s.tokens.size .blockSequenceStart
  let blanks ← skipLine true
  if blanks.tab && (← peek) == '-' && isSpaceOrEnd (← peekAt 1) then fail .tabInIndentation
  discard (skipLine false)
  let c ← peek
  if isBreak c || isFlow c then rollOneColumn
  removeKey
  setKeyAllowed true
  emit .blockEntry s.column

/-- Steps over spaces, line breaks and comments behind the mark of a key, of which there has to be
some. -/
def skipAfterKey (separated : Bool) : Nat → Scan Unit
  | 0 => return
  | fuel + 1 => do
    let s ← get
    match s.current with
    | ' ' => skipSpace; skipAfterKey true fuel
    | '#' => discard (takeWhile (!isBreakOrEnd ·)); skipAfterKey separated fuel
    | c =>
      if isBreak c then
        skipBreak
        if s.flowLevel = 0 then setKeyAllowed true
        skipAfterKey true fuel
      else if !separated then fail .misplacedKey

/-- A key that is marked as one. -/
def fetchKey : Scan Unit := do
  let s ← get
  if s.flowLevel = 0 then
    if !s.keyAllowed then fail .misplacedKey
    rollIndent s.column s.tokens.size .blockMappingStart
  else modify fun s => { s with inFlowMapping := true }
  removeKey
  setKeyAllowed (s.flowLevel = 0)
  skip
  skipAfterKey false (← fuel)
  if (← peek) == '\t' then fail .tabInIndentation
  emit .key s.column

def fetchValue : Scan Unit := do
  let start ← get
  let mark := start.keys.headD {}
  let isPair := !start.implicitPairs.isEmpty && !start.inFlowMapping
  if isPair then
    modify fun s => { s with implicitPairs := .inside :: s.implicitPairs.tail }
  skip
  if (← peek) == '\t' then
    let blanks ← skipLine true
    let c ← peek
    if !blanks.space && (c == '-' || isHandleChar c) then fail .tabInIndentation
  if mark.possible then
    emitAt mark.token .key mark.column
    if isPair then
      if mark.line < start.line then fail .misplacedValue
      emitAt mark.token .flowMappingStart mark.column
    rollIndent mark.column mark.token .blockMappingStart
    rollOneColumn
    modify clearKey
    setKeyAllowed false
  else
    if isPair then emit .flowMappingStart start.column
    if start.flowLevel = 0 then
      if !start.keyAllowed then fail .misplacedValue
      rollIndent start.column (← get).tokens.size .blockMappingStart
    rollOneColumn
    setKeyAllowed (start.flowLevel = 0)
  emit .value start.column

/-- A colon in a flow collection with no blank behind it. -/
def fetchFlowValue : Scan Unit := do
  let s ← get
  if s.index != s.adjacentValueAt && (s.ahead 1 == '[' || s.ahead 1 == '{') then
    fail .misplacedValue
  fetchValue

/-! ### Properties -/

def fetchAnchor (make : String → TokenKind) : Scan Unit := do
  saveKey
  setKeyAllowed false
  let column := (← get).column
  skip
  let name ← takeWhile isAnchorChar
  if name.isEmpty then fail .badAnchor
  emit (make (String.ofList name)) column

/-- The part of a tag behind its handle. `head` is what looked like a handle and is none. -/
def tagSuffix (head : String) : Scan String := do
  let text ← uriText isTagChar (← fuel)
  if head.isEmpty && text.isEmpty then fail .badTag
  return String.ofList (head.toList.drop 1 ++ text)

def fetchTag : Scan Unit := do
  saveKey
  setKeyAllowed false
  let column := (← get).column
  let (handle, suffix) ←
    if (← peekAt 1) == '<' then do
      skip 2
      let uri ← uriText isUriChar (← fuel)
      if (← peek) != '>' then fail .badTag
      skip
      pure ("", String.ofList uri)
    else do
      let handle ← tagHandle false
      if handle.length ≥ 2 && handle.toList.getLast? = some '!' then
        pure (handle, ← tagSuffix "")
      else
        let suffix ← tagSuffix handle
        pure (if suffix.isEmpty then ("", "!") else ("!", suffix))
  let c ← peek
  if !(isSpaceOrEnd c || ((← get).flowLevel > 0 && isFlow c)) then fail .badTag
  emit (.tag handle suffix) column

/-! ### Scalars -/

/-- How the line breaks at the end of a block scalar are kept. -/
inductive Chomping where
  | strip
  | clip
  | keep
deriving DecidableEq

/-- Steps over empty lines and the indentation of the next line, at most `width` columns of it.
Answers the number of line breaks. -/
def skipBlockIndent (width : Nat) : Nat → Scan Nat
  | 0 => return 0
  | fuel + 1 => do
    let s ← get
    let spaces := (s.rest.take (width - s.column)).takeWhile (· == ' ')
    skipSpace spaces.length
    if isBreak (← peek) then
      skipBreak
      return (← skipBlockIndent width fuel) + 1
    return 0

/-- Steps over empty lines up to the first with content. Answers the widest indentation met and the
number of line breaks. -/
def findBlockIndent (widest : Nat) : Nat → Scan (Nat × Nat)
  | 0 => return (widest, 0)
  | fuel + 1 => do
    discard (takeWhile (· == ' '))
    let widest := max widest (← get).column
    if isBreak (← peek) then
      skipBreak
      let (widest, breaks) ← findBlockIndent widest fuel
      return (widest, breaks + 1)
    return (widest, 0)

def newlines (n : Nat) : List Char := List.replicate n '\n'

/-- What has been read of a block scalar. -/
structure BlockText where
  text : List Char := []
  /-- A line break behind the text. -/
  leadingBreak : Bool := false
  /-- Empty lines behind it. -/
  trailingBreaks : Nat := 0
  /-- The last line began with a blank, and is not folded. -/
  lastBlank : Bool := false

/-- The lines of a block scalar that are indented by `width`. -/
def blockLines (literal : Bool) (width : Nat) (block : BlockText) : Nat → Scan BlockText
  | 0 => return block
  | fuel + 1 => do
    let s ← get
    if s.column != width || isEnd s.current || (width = 0 && s.atMarker '.') then return block
    let blank := isSpace s.current
    let breaks :=
      if !literal && block.leadingBreak && !block.lastBlank && !blank then
        if block.trailingBreaks = 0 then [' '] else newlines block.trailingBreaks
      else newlines ((if block.leadingBreak then 1 else 0) + block.trailingBreaks)
    let content ← takeWhile (!isBreakOrEnd ·)
    let text := block.text ++ breaks ++ content
    if isEnd (← peek) then return { text, lastBlank := blank }
    skipBreak
    let trailing ← skipBlockIndent width (← Scan.fuel)
    blockLines literal width ⟨text, true, trailing, blank⟩ fuel

/-- The chomping and indentation indicators, in either order. -/
def blockHeader : Scan (Chomping × Nat) := do
  let chomping : Scan Chomping := do
    match ← peek with
    | '+' => skip; return .keep
    | '-' => skip; return .strip
    | _ => return .clip
  let increment : Scan Nat := do
    let c ← peek
    if !c.isDigit then return 0
    if c == '0' then fail .badBlockScalar
    skip
    return c.toNat - '0'.toNat
  let c ← peek
  if c == '+' || c == '-' then
    let chomping ← chomping
    return (chomping, ← increment)
  else
    let increment ← increment
    if increment = 0 then return (.clip, 0)
    return (← chomping, increment)

/-- The text of a block scalar. -/
def blockScalar (literal : Bool) : Scan String := do
  let startLine := (← get).line
  skip
  unrollColumns
  let (chomping, increment) ← blockHeader
  discard (skipLine true)
  let c ← peek
  if !isBreakOrEnd c then fail .badBlockScalar
  let hasBreak := isBreak c
  if hasBreak then skipBreak
  if (← peek) == '\t' then fail .badBlockScalar
  let indent := (← get).indent
  let (width, breaks) ←
    if increment > 0 then do
      let width := if indent ≥ 0 then (indent + increment).toNat else increment
      pure (width, ← skipBlockIndent width (← fuel))
    else do
      let (widest, breaks) ← findBlockIndent 0 (← fuel)
      let width := max widest (indent + 1).toNat
      pure (if indent > 0 then max width 1 else width, breaks)
  let s ← get
  if isEnd s.current then
    return String.ofList <| match chomping with
      | .strip => []
      | .clip => if s.line = startLine || !hasBreak then [] else ['\n']
      | .keep =>
        if s.line = startLine then []
        else if breaks = 0 then (if hasBreak then ['\n'] else [])
        else newlines breaks
  if s.column < width && (s.column : Int) > indent then fail .badIndentation
  let block ← blockLines literal width { trailingBreaks := breaks } (← fuel)
  let s ← get
  let ending :=
    if chomping = .strip then []
    else
      newlines (if block.leadingBreak then 1 else 0) ++
        if isEnd s.current && s.column ≥ max width 1 then ['\n'] else []
  let kept := if chomping = .keep then newlines block.trailingBreaks else []
  return String.ofList (block.text ++ ending ++ kept)

def fetchBlockScalar (literal : Bool) : Scan Unit := do
  saveKey
  setKeyAllowed true
  let column := (← get).column
  let text ← blockScalar literal
  emit (.scalar .block text) column

/-- The character of an escape sequence in double quotes, the cursor being at the backslash. -/
def escape : Scan Char := do
  let hex (digits : Nat) : Scan Char := do
    skip 2
    let code := (← get).rest.take digits
    if code.length != digits || !code.all isHexDigit then fail .badEscape
    match charOf? (code.foldl (fun value c => 16 * value + hexValue c) 0) with
    | none => fail .badEscape
    | some c => skip digits; return c
  let plain (c : Char) : Scan Char := do skip 2; return c
  match ← peekAt 1 with
  | '0' => plain '\x00'
  | 'a' => plain '\x07'
  | 'b' => plain '\x08'
  | 't' => plain '\t'
  | '\t' => plain '\t'
  | 'n' => plain '\n'
  | 'v' => plain '\x0b'
  | 'f' => plain '\x0c'
  | 'r' => plain '\r'
  | 'e' => plain '\x1b'
  | ' ' => plain ' '
  | '"' => plain '"'
  | '/' => plain '/'
  | '\\' => plain '\\'
  | 'N' => plain '\u0085'
  | '_' => plain '\u00a0'
  | 'L' => plain '\u2028'
  | 'P' => plain '\u2029'
  | 'x' => hex 2
  | 'u' => hex 4
  | 'U' => hex 8
  | _ => fail .badEscape

/-- The characters of a quoted scalar up to white space, a line break or the closing quote. Answers
whether an escaped line break ended them. -/
def quotedChars (single : Bool) : Nat → Scan (List Char × Bool)
  | 0 => return ([], false)
  | fuel + 1 => do
    let s ← get
    let c := s.current
    let prepend (c : Char) : Scan (List Char × Bool) := do
      let (rest, escaped) ← quotedChars single fuel
      return (c :: rest, escaped)
    if isSpaceOrEnd c then return ([], false)
    else if single && c == '\'' && s.ahead 1 == '\'' then
      skip 2
      prepend '\''
    else if c == (if single then '\'' else '"') then return ([], false)
    else if !single && c == '\\' then
      if isBreak (s.ahead 1) then
        skip
        skipBreak
        return ([], true)
      else prepend (← escape)
    else
      skip
      prepend c

/-- White space met between the words of a scalar. -/
structure Gap where
  /-- White space on the line of the word before. -/
  spaces : List Char := []
  /-- A line break was met. -/
  folded : Bool := false
  /-- The first line break counts; it does not when it was escaped. -/
  leadingBreak : Bool := false
  trailingBreaks : Nat := 0

/-- What stands for the gap in the text: a single line break becomes a space. -/
def Gap.text (gap : Gap) : List Char :=
  if gap.folded then
    if gap.leadingBreak && gap.trailingBreaks = 0 then [' '] else newlines gap.trailingBreaks
  else gap.spaces

/-- Reads the white space between two words of a quoted scalar. -/
def quotedGap (gap : Gap) : Nat → Scan Gap
  | 0 => return gap
  | fuel + 1 => do
    let s ← get
    let c := s.current
    if isSpace c then
      if gap.folded && c == '\t' && (s.column : Int) < s.indent then fail .tabInIndentation
      skipSpace
      quotedGap (if gap.folded then gap else { gap with spaces := gap.spaces ++ [c] }) fuel
    else if isBreak c then
      skipBreak
      quotedGap
        (if gap.folded then { gap with trailingBreaks := gap.trailingBreaks + 1 }
         else { gap with spaces := [], folded := true, leadingBreak := true })
        fuel
    else return gap

/-- The words of a quoted scalar up to its closing quote. -/
def quotedWords (single : Bool) : Nat → Scan (List Char)
  | 0 => fail .badQuotedScalar
  | fuel + 1 => do
    let s ← get
    if (s.column = 0 && s.atDocumentMarker) || isEnd s.current || (s.column : Int) < s.indent then
      fail .badQuotedScalar
    let (chars, escaped) ← quotedChars single (← Scan.fuel)
    if (← peek) == (if single then '\'' else '"') then return chars
    let gap ← quotedGap { folded := escaped } (← Scan.fuel)
    return chars ++ gap.text ++ (← quotedWords single fuel)

def fetchQuotedScalar (single : Bool) : Scan Unit := do
  saveKey
  setKeyAllowed false
  let start ← get
  skip
  let text ← quotedWords single (← fuel)
  skip
  discard (skipLine true)
  let s ← get
  let c := s.current
  let inFlow := s.flowLevel > 0
  let follows :=
    isBreakOrEnd c || (inFlow && c ∈ [',', '}', ']', ':']) || (c == ':' && start.line = s.line)
  if !follows then fail .badQuotedScalar
  skipToToken (← fuel)
  modify fun s => { s with adjacentValueAt := s.index }
  emit (.scalar .quoted (String.ofList text)) start.column

/-- The characters of a plain scalar up to where a word ends. -/
def plainWord : Nat → Scan (List Char)
  | 0 => return []
  | fuel + 1 => do
    let s ← get
    if isSpaceOrEnd s.current || !s.atPlainChar then return []
    skip
    return s.current :: (← plainWord fuel)

/-- Reads the white space between two words of a plain scalar. -/
def plainGap (indent : Int) (gap : Gap) : Nat → Scan Gap
  | 0 => return gap
  | fuel + 1 => do
    let s ← get
    let c := s.current
    if isSpace c then
      if !gap.folded then
        skipSpace
        plainGap indent { gap with spaces := gap.spaces ++ [c] } fuel
      else if c == '\t' && (s.column : Int) < indent then
        discard (skipLine true)
        if !isBreakOrEnd (← peek) then fail .tabInIndentation
        plainGap indent gap fuel
      else
        skipSpace
        plainGap indent gap fuel
    else if isBreak c then
      skipBreak
      plainGap indent
        (if gap.folded then { gap with trailingBreaks := gap.trailingBreaks + 1 }
         else { gap with spaces := [], folded := true, leadingBreak := true })
        fuel
    else return gap

/-- The words of a plain scalar, with `gap` in front of the first. -/
def plainWords (indent : Int) (gap : Gap) : Nat → Scan (List Char)
  | 0 => return []
  | fuel + 1 => do
    let s ← get
    if (s.leading && s.atDocumentMarker) || s.current == '#' then return []
    if s.flowLevel > 0 && s.current == '-' && isFlow (s.ahead 1) then fail .badPlainScalar
    let word ← plainWord (← Scan.fuel)
    let (text, gap) := if word.isEmpty then ([], gap) else (gap.text ++ word, {})
    if !isSpaceOrEnd (← peek) || isEnd (← peek) then return text
    let gap ← plainGap indent gap (← Scan.fuel)
    let s ← get
    if s.flowLevel = 0 && (s.column : Int) < indent then return text
    return text ++ (← plainWords indent gap fuel)

def fetchPlainScalar : Scan Unit := do
  saveKey
  setKeyAllowed false
  unrollColumns
  let start ← get
  let indent := start.indent + 1
  if start.flowLevel > 0 && (start.column : Int) < indent then fail .badIndentation
  let startsLine := start.leading
  let text ← plainWords indent { folded := startsLine } (← fuel)
  if (← get).leading then setKeyAllowed true
  if text.isEmpty then fail .badPlainScalar
  emit (.scalar .plain (String.ofList text)) start.column

/-! ### The stream -/

def fetchStreamEnd : Scan Unit := do
  let s ← get
  if s.flowLevel > 0 then fail .misplacedBracket
  if s.keys.any fun mark => mark.possible && mark.required then fail .missingColon
  unrollIndent (-1)
  emit .streamEnd s.column

/-- Reads the next token, and whatever has to be inserted for it. Answers whether the stream goes
on. -/
def fetchNext : Scan Bool := do
  skipToToken (← fuel)
  dropStaleKeys
  unrollIndent (← get).column
  let s ← get
  let c := s.current
  let next := s.ahead 1
  let inFlow := s.flowLevel > 0
  if isEnd c then
    fetchStreamEnd
    return false
  if s.column = 0 && c == '%' then fetchDirective
  else if s.column = 0 && s.atMarker '-' then fetchDocumentMarker .documentStart
  else if s.column = 0 && s.atMarker '.' then
    fetchDocumentMarker .documentEnd
    discard (skipLine true)
    if !isBreakOrEnd (← peek) then fail .badDocumentMarker
  else if (s.column : Int) < s.indent then fail .badIndentation
  else if c == '[' then fetchFlowStart .flowSequenceStart
  else if c == '{' then fetchFlowStart .flowMappingStart
  else if c == ']' then fetchFlowEnd .flowSequenceEnd
  else if c == '}' then fetchFlowEnd .flowMappingEnd
  else if c == ',' then fetchFlowEntry
  else if c == '-' && isSpaceOrEnd next then fetchBlockEntry
  else if c == '?' && isSpaceOrEnd next then fetchKey
  else if c == ':' && isSpaceOrEnd next then fetchValue
  else if c == ':' && inFlow && (isFlow next || s.index = s.adjacentValueAt) then fetchFlowValue
  else if c == '*' then fetchAnchor .reference
  else if c == '&' then fetchAnchor .anchor
  else if c == '!' then fetchTag
  else if c == '|' && !inFlow then fetchBlockScalar true
  else if c == '>' && !inFlow then fetchBlockScalar false
  else if c == '\'' then fetchQuotedScalar true
  else if c == '"' then fetchQuotedScalar false
  else if c ∈ ['%', '@', '\x60'] then fail .unexpectedCharacter
  else fetchPlainScalar
  return true

/-- Reads tokens until the stream ends. Each takes at least one character. -/
def fetchAll : Nat → Scan Unit
  | 0 => return
  | fuel + 1 => do if ← fetchNext then fetchAll fuel

end Scan

/-- The tokens of a stream, the last of which is its end. -/
def tokens (text : String) : Except Fault (List Token) := do
  let rest := text.toList.takeWhile (!isEnd ·)
  let (_, scanner) ← (Scan.fetchAll (rest.length + 2)).run { rest }
  return scanner.tokens.toList

end LivePreview.Yaml
