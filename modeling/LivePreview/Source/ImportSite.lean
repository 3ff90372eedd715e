import LivePreview.Source.CodeMap

/-!
# Import sites

Finds the import specifiers of a script: statements that begin a line (`import x from '…'`,
`import '…'`, `export … from '…'`) and calls `import('…')`. A statement or call that starts outside
code is no site.
-/
namespace LivePreview.Source

open LivePreview.Text

inductive ImportKind where
  /-- `import x from '…'` -/
  | static
  /-- `import '…'` -/
  | sideEffect
  /-- `export … from '…'` -/
  | reExport
  /-- `import('…')` -/
  | dynamic
deriving DecidableEq, Repr

/-- One specifier in a source. -/
structure ImportSite where
  specifier : String
  kind : ImportKind
  /-- The specifier between its quotes. -/
  span : Span
  /-- The whole statement or call. -/
  statement : Span
deriving DecidableEq, Repr

namespace ImportSite

def location (site : ImportSite) (source : String) : Location :=
  .ofOffset source.toList site.span.start

/-- The statement can be dropped without leaving names unbound. -/
def isRemovable (site : ImportSite) : Bool :=
  site.kind = .static || site.kind = .sideEffect

end ImportSite

/-! ### Recognisers -/

/-- What a recogniser found at the offset it was tried at. -/
structure Match where
  /-- From the first to behind the last character of the match. -/
  whole : Span
  /-- The offset of the word `import` or `export`. -/
  keywordAt : Nat
  /-- `none` for an `export` that names no module. -/
  kind : Option ImportKind
  specifier : List Char
  specifierAt : Nat
deriving DecidableEq, Repr

/-- The rest of `cs` behind `word`. -/
def dropWord? (word : List Char) (cs : List Char) : Option (List Char) :=
  if word.isPrefixOf cs then some (cs.drop word.length) else none

def isQuote (c : Char) : Bool := c == '\'' || c == '"'

/-- A specifier in quotes, which need not be alike, and the rest behind it. The specifier is not
empty, holds neither quote and stays on one line. -/
def quoted? (cs : List Char) : Option (List Char × List Char) :=
  match cs with
  | [] => none
  | opening :: rest =>
    if !isQuote opening then none
    else
      let (specifier, behind) := rest.span fun c => !isQuote c && c != '\r' && c != '\n'
      match behind with
      | closing :: rest =>
        if specifier.isEmpty || !isQuote closing then none else some (specifier, rest)
      | [] => none

/-- The text between the keyword and the opening quote names bindings and ends in the word `from`:
white space, anything without quotes, parentheses, `;`, `=`, `<` and `>`, white space, `from`. -/
def isFromClause (clause : List Char) : Bool :=
  match dropWord? "morf".toList (clause.reverse.dropWhile isBlank) with
  | none => false
  | some reversed =>
    match reversed, reversed.getLast? with
    | last :: _ :: _, some first =>
      isBlank last && isBlank first && reversed.all (· ∉ [';', '(', ')', '=', '<', '>'])
    | _, _ => false

/-- A statement that begins at `offset`, which has to be the start of a line. -/
def statementAt? (previous : Option Char) (offset : Nat) (cs : List Char) : Option Match :=
  if previous.any (· != '\n') then none
  else
    let (indent, atKeyword) := cs.span isIndent
    let keywordAt := offset + byteLength indent
    let imported := dropWord? "import".toList atKeyword
    match imported.or (dropWord? "export".toList atKeyword) with
    | none => none
    | some behindKeyword =>
      let (clause, atQuote) := behindKeyword.span fun c => !isQuote c
      let bare := clause.all isBlank
      if !bare && !isFromClause clause then none
      else
        match quoted? atQuote with
        | none => none
        | some (specifier, rest) =>
          let afterPadding := rest.dropWhile isIndent
          let afterStatement := if afterPadding.head? = some ';' then afterPadding.tail else afterPadding
          let kind : Option ImportKind :=
            match imported, bare with
            | some _, true => some .sideEffect
            | some _, false => some .static
            | none, true => none
            | none, false => some .reExport
          some
            { whole := ⟨offset, offset + byteLength cs - byteLength afterStatement⟩
              keywordAt
              kind
              specifier
              specifierAt := offset + byteLength cs - byteLength atQuote + 1 }

/-- A call that begins at `offset`, which has to be the start of a word. -/
def callAt? (previous : Option Char) (offset : Nat) (cs : List Char) : Option Match :=
  if previous.any isWordChar then none
  else
    match dropWord? "import".toList cs with
    | none => none
    | some behindKeyword =>
      match dropWord? ['('] (behindKeyword.dropWhile isBlank) with
      | none => none
      | some behindParenthesis =>
        let atQuote := behindParenthesis.dropWhile isBlank
        match quoted? atQuote with
        | none => none
        | some (specifier, rest) =>
          match dropWord? [')'] (rest.dropWhile isBlank) with
          | none => none
          | some behind =>
            some
              { whole := ⟨offset, offset + byteLength cs - byteLength behind⟩
                keywordAt := offset
                kind := some .dynamic
                specifier
                specifierAt := offset + byteLength cs - byteLength atQuote + 1 }

/-- The matches of a recogniser from left to right, none starting before the end of the one
before it. `resume` is that end, `previous` the character in front of `offset`. -/
def matchesFrom (recognise : Option Char → Nat → List Char → Option Match)
    (resume : Nat) (previous : Option Char) (offset : Nat) : List Char → List Match
  | [] => []
  | c :: rest =>
    let found := if offset < resume then none else recognise previous offset (c :: rest)
    match found with
    | some m => m :: matchesFrom recognise m.whole.stop (some c) (offset + c.utf8Size) rest
    | none => matchesFrom recognise resume (some c) (offset + c.utf8Size) rest

/-- The site of a match whose keyword is code. -/
def Match.site? (map : CodeMap) (m : Match) : Option ImportSite :=
  if !map.isCode m.keywordAt then none
  else m.kind.map fun kind =>
    { specifier := String.ofList m.specifier
      kind
      span := ⟨m.specifierAt, m.specifierAt + byteLength m.specifier⟩
      statement := m.whole }

/-- The import sites of a source in the order of their specifiers. -/
def importSites (source : String) (dialect : Dialect) : List ImportSite :=
  let chars := source.toList
  let map := CodeMap.ofSource chars dialect.allowsMarkup
  let found := matchesFrom statementAt? 0 none 0 chars ++ matchesFrom callAt? 0 none 0 chars
  sortOn (·.span.start) (found.filterMap (·.site? map))

end LivePreview.Source
