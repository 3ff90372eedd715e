/-!
# Characters of YAML streams

The classes that decide where a token ends. A stream ends at its first NUL character; behind the end
every further character is read as NUL.
-/
namespace LivePreview.Yaml

def endMark : Char := '\x00'

def isEnd (c : Char) : Bool := c == endMark

def isBreak (c : Char) : Bool := c == '\n' || c == '\r'

def isBreakOrEnd (c : Char) : Bool := isBreak c || isEnd c

/-- A space or a tab. -/
def isSpace (c : Char) : Bool := c == ' ' || c == '\t'

/-- What separates tokens on one line, or ends the line. -/
def isSpaceOrEnd (c : Char) : Bool := isSpace c || isBreakOrEnd c

/-- The indicators that structure flow collections. -/
def isFlow (c : Char) : Bool := c ∈ [',', '[', ']', '{', '}']

/-- A character of directive names and tag handles. -/
def isHandleChar (c : Char) : Bool := c.isAlphanum || c == '_' || c == '-'

def isUriChar (c : Char) : Bool := isHandleChar c || c ∈ "#;/?:@&=+$,.!~*'()[]%".toList

/-- A character of the part of a tag that follows its handle. -/
def isTagChar (c : Char) : Bool := isUriChar c && !isFlow c && c != '!'

/-- A character of the name of an anchor. -/
def isAnchorChar (c : Char) : Bool :=
  !isSpaceOrEnd c && !isFlow c && c != '\ufeff'

def isHexDigit (c : Char) : Bool :=
  c.isDigit || ('a' ≤ c && c ≤ 'f') || ('A' ≤ c && c ≤ 'F')

def hexValue (c : Char) : Nat :=
  if c.isDigit then c.toNat - '0'.toNat
  else if 'a' ≤ c then c.toNat - 'a'.toNat + 10
  else c.toNat - 'A'.toNat + 10

/-- The character of a code point, if there is one. -/
def charOf? (point : Nat) : Option Char :=
  if h : point.isValidChar then some (Char.ofNatAux point h) else none

end LivePreview.Yaml
