import LivePreview.Sorting

/-!
# Byte spans

Positions in a text are counted in bytes of its UTF-8 form. A `Span` is a range of such positions,
`slice` reads it back, and `applyEdits` replaces several spans of one text.
-/
namespace LivePreview.Text

/-- The number of bytes of the text. -/
def byteLength (cs : List Char) : Nat := cs.foldr (fun c size => c.utf8Size + size) 0

/-- The longest leading part of at most `n` bytes. -/
def takeBytes : Nat → List Char → List Char
  | _, [] => []
  | n, c :: cs => if c.utf8Size ≤ n then c :: takeBytes (n - c.utf8Size) cs else []

/-- What `takeBytes` leaves. -/
def dropBytes : Nat → List Char → List Char
  | _, [] => []
  | n, c :: cs => if c.utf8Size ≤ n then dropBytes (n - c.utf8Size) cs else c :: cs

theorem takeBytes_append_dropBytes (n : Nat) (cs : List Char) :
    takeBytes n cs ++ dropBytes n cs = cs := by
  induction cs generalizing n with
  | nil => rfl
  | cons c cs ih => by_cases h : c.utf8Size ≤ n <;> simp [takeBytes, dropBytes, h, ih]

/-- A range of byte positions, `stop` excluded. -/
structure Span where
  start : Nat
  stop : Nat
deriving DecidableEq, Repr

def Span.contains (span : Span) (offset : Nat) : Bool := span.start ≤ offset && offset < span.stop

/-- The part of the text that the span covers. -/
def slice (cs : List Char) (span : Span) : List Char :=
  takeBytes (span.stop - span.start) (dropBytes span.start cs)

/-- A span and the text that takes its place. -/
structure Edit where
  span : Span
  text : String
deriving DecidableEq, Repr

/-- Copies the source from `cursor` on, with the edits made; an edit that starts before the cursor
is dropped. -/
def splice (source : List Char) (cursor : Nat) : List Edit → List Char
  | [] => dropBytes cursor source
  | edit :: rest =>
    if edit.span.start < cursor then splice source cursor rest
    else slice source ⟨cursor, edit.span.start⟩ ++ edit.text.toList ++
      splice source edit.span.stop rest

/-- Makes the edits in order of their start; of overlapping ones the first stays. -/
def applyEdits (source : String) (edits : List Edit) : String :=
  String.ofList (splice source.toList 0 (sortOn (·.span.start) edits))

end LivePreview.Text
