import LivePreview.Path

/-!
# Changes

What a store announces about itself: one record for each operation that changed it.
-/
namespace LivePreview

inductive ChangeKind where
  | fileCreated
  | fileUpdated
  | directoryCreated
  | fileDeleted
  | directoryDeleted
  | renamed
deriving DecidableEq, Repr

def ChangeKind.text : ChangeKind → String
  | fileCreated => "file created"
  | fileUpdated => "file updated"
  | directoryCreated => "directory created"
  | fileDeleted => "file deleted"
  | directoryDeleted => "directory deleted"
  | renamed => "renamed"

structure Change where
  kind : ChangeKind
  path : Path
  /-- Where a renamed node came from. -/
  previous : Option Path := none
deriving DecidableEq, Repr

end LivePreview
