import LivePreview.Text.Span

/-!
# Lines and columns

A `Location` is a line and a column, both counted from one, the column in characters.
-/
namespace LivePreview.Text

structure Location where
  line : Nat
  column : Nat
deriving DecidableEq, Repr

namespace Location

/-- Where a text begins. -/
def first : Location := ⟨1, 1⟩

/-- The location behind `c` when `c` stands at this one. -/
def after (location : Location) (c : Char) : Location :=
  if c = '\n' then ⟨location.line + 1, 1⟩ else ⟨location.line, location.column + 1⟩

/-- The location of a byte position: one line more than the line breaks before it, and one column
more than the characters behind the last of them. -/
def ofOffset (source : List Char) (offset : Nat) : Location :=
  let before := takeBytes offset source
  ⟨before.count '\n' + 1, (before.reverse.takeWhile (· ≠ '\n')).length + 1⟩

/-- The line, a colon and the column. -/
def render (location : Location) : String :=
  s!"{location.line}:{location.column}"

end Location

end LivePreview.Text
