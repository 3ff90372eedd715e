import LivePreview.Package
import LivePreview.Registry.ImportMap

/-!
# Registries

A registry keeps the code of modules behind handles. Each build registers its modules in a new
generation, next to the installed one. A generation is then installed, which releases all others, or
discarded, which releases it alone.
-/
namespace LivePreview

structure Registry where
  /-- The generation that modules are registered in. -/
  generation : Nat := 0
  installed : Option Nat := none
  nextSequence : Nat := 0
  /-- The code behind each live handle. -/
  live : List (Handle × String) := []
  /-- The handles of the current generation, in the order of registration. -/
  current : List (Path × Handle) := []
deriving DecidableEq, Repr

namespace Registry

/-- The handle that a path has in the current generation. -/
def handle? (registry : Registry) (path : Path) : Option Handle := Table.get? path registry.current

/-- The code behind a handle, `none` when the handle is not live. -/
def fetch? (registry : Registry) (handle : Handle) : Option String :=
  Table.get? handle registry.live

def startGeneration (registry : Registry) : Registry :=
  { registry with generation := registry.generation + 1, nextSequence := 0, current := [] }

/-- Keeps the handles that satisfy the condition. -/
def keep (registry : Registry) (p : Handle → Bool) : Registry :=
  { registry with live := registry.live.filter fun entry => p entry.1 }

/-- Makes a generation the live one and releases all others. -/
def install (registry : Registry) (generation : Nat) : Registry :=
  { registry.keep (fun handle => handle.generation = generation) with installed := some generation }

/-- Releases a generation, unless it is the installed one. -/
def discard (registry : Registry) (generation : Nat) : Registry :=
  if registry.installed = some generation then registry
  else
    let registry := registry.keep fun handle => handle.generation ≠ generation
    if registry.generation = generation then { registry with current := [] } else registry

/-- Puts code behind a handle in place of what stood there. -/
def setCode (registry : Registry) (handle : Handle) (code : String) : Registry :=
  { registry with live := Table.erase handle registry.live ++ [(handle, code)] }

/-- Registers the code of a path. A path that has a handle keeps it. -/
def register (registry : Registry) (path : Path) (code : String) : Registry × Handle :=
  match registry.handle? path with
  | some handle => (registry.setCode handle code, handle)
  | none =>
    let handle : Handle := ⟨registry.generation, registry.nextSequence⟩
    let registry :=
      { registry with
        nextSequence := registry.nextSequence + 1
        current := registry.current ++ [(path, handle)] }
    (registry.setCode handle code, handle)

/-- The import map of the current generation and some packages. -/
def importMap (registry : Registry) (config : Config) (entry : Handle)
    (packages : List Package) : ImportMap :=
  let modules := registry.current.map fun (path, handle) => (path.text, Resource.module handle)
  let externals := packages.map fun p => (p.specifier, Resource.external (p.url config))
  { imports := Table.ofList (modules ++ externals), entry }

end Registry

end LivePreview
