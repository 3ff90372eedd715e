import LivePreview.Module.Memo
import LivePreview.Registry.ImportMap

/-!
# Build status

How far a preview has come, and what its last build found.
-/
namespace LivePreview

structure BuildReport where
  generation : Nat
  entry : Path
  /-- The number of modules that the entry reaches. -/
  reachable : Nat
  /-- The number of those that have a handle. -/
  registered : Nat
  styles : Nat
  importMap : ImportMap
  memo : MemoStats
deriving DecidableEq, Repr

inductive BuildError where
  | missingEntry (candidates : List Path)
  | module (cause : ModuleError)
deriving DecidableEq, Repr

namespace BuildError

/-- One line for people to read. -/
def report : BuildError → String
  | missingEntry candidates =>
    "No entry file found, looked for " ++ ", ".intercalate (candidates.map Path.text)
  | module cause => cause.report

end BuildError

inductive BuildStatus where
  | idle
  | building
  | ready (report : BuildReport)
  /-- The report is about the modules that have no error. There is none when the entry failed. -/
  | failed (errors : List BuildError) (report : Option BuildReport)
deriving DecidableEq, Repr

namespace BuildStatus

def isFailed : BuildStatus → Bool
  | failed _ _ => true
  | _ => false

/-- The report of the last build, whether it is ready or not. -/
def report? : BuildStatus → Option BuildReport
  | ready report => some report
  | failed _ report => report
  | _ => none

end BuildStatus

end LivePreview
