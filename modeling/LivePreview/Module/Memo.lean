import LivePreview.Module.Draft

/-!
# Modules and their memo

Turns drafts into modules. A script that passed its check is remembered, and it is not checked again
as long as each build meets it.
-/
namespace LivePreview

structure Module where
  path : Path
  kind : ModuleKind
  /-- The files that it imports, recorded also when the module failed. -/
  dependencies : List Path
  packages : List Package
  lazyStyles : List Path
  /-- The code, or why there is none. -/
  output : Except ModuleError String
deriving Repr

def Module.isOk (m : Module) : Bool := m.output.toOption.isSome

/-- The code of a linked script, which is the script itself once its brackets are found to
match. -/
def checkScript (path : Path) (dialect : Source.Dialect) (linked : String) :
    Except ModuleError String :=
  match Source.firstFault? linked dialect with
  | some fault => .error (.malformed path (.script fault))
  | none => .ok linked

/-- The module that a draft becomes without any memo. -/
def Draft.output (draft : Draft) : Except ModuleError String :=
  match draft.body with
  | .done output => output
  | .script dialect _ linked => checkScript draft.path dialect linked

def Draft.withOutput (draft : Draft) (output : Except ModuleError String) : Module :=
  { path := draft.path
    kind := draft.kind
    dependencies := draft.dependencies
    packages := draft.packages
    lazyStyles := draft.lazyStyles
    output }

/-- How often the memo helped in the current build, and how much it holds. -/
structure MemoStats where
  hits : Nat
  misses : Nat
  entries : Nat
deriving DecidableEq, Repr

structure Memo where
  /-- The code of scripts that passed. -/
  entries : List (MemoKey × String) := []
  /-- The keys met in the current build. -/
  used : List MemoKey := []
  hits : Nat := 0
  misses : Nat := 0
deriving Repr

namespace Memo

def stats (memo : Memo) : MemoStats := ⟨memo.hits, memo.misses, memo.entries.length⟩

/-- Starts to count anew. -/
def startBuild (memo : Memo) : Memo := { memo with used := [], hits := 0, misses := 0 }

/-- Forgets what was not met since the build started. -/
def finishBuild (memo : Memo) : Memo :=
  { memo with entries := memo.entries.filter fun entry => memo.used.contains entry.1 }

/-- Completes a draft, from the memo if it knows the result. -/
def complete (memo : Memo) (draft : Draft) : Memo × Module :=
  match draft.body with
  | .done output => (memo, draft.withOutput output)
  | .script dialect key linked =>
    let memo := { memo with used := memo.used.insert key }
    match Table.get? key memo.entries with
    | some code => ({ memo with hits := memo.hits + 1 }, draft.withOutput (.ok code))
    | none =>
      let memo := { memo with misses := memo.misses + 1 }
      match checkScript draft.path dialect linked with
      | .ok code =>
        ({ memo with entries := memo.entries ++ [(key, code)] }, draft.withOutput (.ok code))
      | .error error => (memo, draft.withOutput (.error error))

/-- Completes drafts one after the other. -/
def completeAll (memo : Memo) : List Draft → Memo × List Module
  | [] => (memo, [])
  | draft :: rest =>
    let (memo, first) := memo.complete draft
    let (memo, others) := memo.completeAll rest
    (memo, first :: others)

/-- The module of the file at a path. -/
def transform (memo : Memo) (config : Config) (store : Store) (path : Path) : Memo × Module :=
  memo.complete (.ofPath config store path)

end Memo

end LivePreview
