import LivePreview.Module.Memo

/-!
# Module graphs

The modules that an entry file reaches by its imports, in breadth-first order and each once.
-/
namespace LivePreview

structure ModuleGraph where
  entry : Path
  modules : List Module
deriving Repr

namespace ModuleGraph

/-- The drafts of the queued paths and of what they reach beyond the paths already seen. Each path is
queued when it is first seen, so `fuel` is enough when it exceeds the number of paths that an import
can resolve to. -/
def draftsFrom (config : Config) (store : Store) : Nat → List Path → List Path → List Draft
  | 0, _, _ => []
  | _, _, [] => []
  | fuel + 1, seen, path :: queue =>
    let draft := Draft.ofPath config store path
    let found := draft.dependencies.filter fun dependency => !seen.contains dependency
    draft :: draftsFrom config store fuel (seen ++ found) (queue ++ found)

/-- A bound on the paths that are seen: the entry, and for each file its own path and one for each
extension that an index file may have. -/
def pathBound (config : Config) (store : Store) : Nat :=
  store.files.length * (config.extensions.length + 1) + 1

def drafts (config : Config) (store : Store) (entry : Path) : List Draft :=
  draftsFrom config store (pathBound config store) [entry] [entry]

/-- The graph of an entry file. -/
def walk (config : Config) (store : Store) (memo : Memo) (entry : Path) : Memo × ModuleGraph :=
  let (memo, modules) := memo.completeAll (drafts config store entry)
  (memo, ⟨entry, modules⟩)

end ModuleGraph

end LivePreview
