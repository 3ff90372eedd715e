import LivePreview.Store.Node

/-!
# Store errors

Why a store refuses an operation.
-/
namespace LivePreview

/-- Why an edit does not fit the file that it is meant for. -/
inductive EditMismatch where
  | emptyPattern
  | absent
  | ambiguous (occurrences : Nat)
  | pastEnd (line lines : Nat)
deriving DecidableEq, Repr

namespace EditMismatch

def reason : EditMismatch → String
  | emptyPattern => "the text to replace is empty"
  | absent => "the text to replace was not found"
  | ambiguous occurrences => s!"the text to replace occurs {occurrences} times"
  | pastEnd line lines => s!"line {line} is past the end of the file ({lines} lines)"

end EditMismatch

inductive StoreError where
  | invalidPath (cause : PathError)
  | notFound (path : Path)
  | kindConflict (path : Path) (expected : NodeKind)
  | pathCollision (path : Path)
  | editMismatch (path : Path) (mismatch : EditMismatch)
deriving DecidableEq, Repr

/-- The kind with its article. -/
def NodeKind.phrase : NodeKind → String
  | file => "a file"
  | directory => "a directory"

namespace StoreError

def message : StoreError → String
  | invalidPath _ => "Invalid path"
  | notFound path => "No file or directory at '" ++ path.text ++ "'"
  | kindConflict path expected =>
    "'" ++ path.text ++ "' is in the way, expected " ++ expected.phrase
  | pathCollision path => "'" ++ path.text ++ "' already exists"
  | editMismatch path mismatch => "Cannot edit '" ++ path.text ++ "': " ++ mismatch.reason

end StoreError

end LivePreview
