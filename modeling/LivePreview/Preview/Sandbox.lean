import LivePreview.Registry

/-!
# Documents and sandboxes

A document is what a page needs for one load. A sandbox runs it in a context of its own: each load
replaces the whole context.
-/
namespace LivePreview

/-- The text of a stylesheet that some module imports. -/
structure Stylesheet where
  path : Path
  text : String
deriving DecidableEq, Repr

structure Document where
  importMap : ImportMap
  styles : List Stylesheet
deriving DecidableEq, Repr

/-- What one load brought into the sandbox. -/
structure SandboxContext where
  entry : Handle
  modules : List (Handle × String)
  styles : List String
  /-- The handles that were not live. -/
  failures : List Handle
deriving DecidableEq, Repr

structure Sandbox where
  context : Option SandboxContext := none
  loads : Nat := 0
deriving DecidableEq, Repr

/-- Loads every module of the document's import map. -/
def Sandbox.load (sandbox : Sandbox) (document : Document) (registry : Registry) : Sandbox :=
  let handles := document.importMap.handles
  { context := some
      { entry := document.importMap.entry
        modules := handles.filterMap fun handle => (registry.fetch? handle).map (handle, ·)
        styles := document.styles.map (·.text)
        failures := handles.filter fun handle => (registry.fetch? handle).isNone }
    loads := sandbox.loads + 1 }

end LivePreview
