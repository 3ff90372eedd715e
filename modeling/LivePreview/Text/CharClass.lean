import LivePreview.Text.CharTable

/-!
# Character classes

Blank, alphabetic, numeric and word characters. ASCII is decided directly, everything above it by
the ranges of `LivePreview.Text.CharTable`.
-/
namespace LivePreview.Text

/-- The code point lies in one of the ranges. -/
def inRanges (ranges : List (Nat × Nat)) (point : Nat) : Bool :=
  ranges.any fun range => range.1 ≤ point && point ≤ range.2

def isAscii (c : Char) : Bool := c.toNat < 0x80

/-- White space: the tabs, breaks, spaces and separators of the property `White_Space`. -/
def isBlank (c : Char) : Bool :=
  inRanges
    [(0x9, 0xD), (0x20, 0x20), (0x85, 0x85), (0xA0, 0xA0), (0x1680, 0x1680), (0x2000, 0x200A),
     (0x2028, 0x2029), (0x202F, 0x202F), (0x205F, 0x205F), (0x3000, 0x3000)]
    c.toNat

def isAlphabetic (c : Char) : Bool :=
  if isAscii c then c.isAlpha else inRanges CharTable.alphabetic c.toNat

def isNumeric (c : Char) : Bool :=
  if isAscii c then c.isDigit else inRanges CharTable.numeric c.toNat

def isAlphanumeric (c : Char) : Bool := isAlphabetic c || isNumeric c

/-- A character that word boundaries are drawn around. Word boundaries follow version 16 of the
character database, so what was added later does not count. -/
def isWordChar (c : Char) : Bool :=
  if isAscii c then c.isAlphanum || c == '_'
  else
    (isAlphabetic c || inRanges CharTable.wordExtra c.toNat) &&
      !inRanges CharTable.addedIn17 c.toNat

/-- A space or a tab: the blanks that may indent a statement. -/
def isIndent (c : Char) : Bool := c == ' ' || c == '\t'

/-- The text without leading and trailing white space. -/
def trim (cs : List Char) : List Char :=
  ((cs.dropWhile isBlank).reverse.dropWhile isBlank).reverse

end LivePreview.Text
