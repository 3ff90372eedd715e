import LivePreview.Module.Graph
import LivePreview.Preview.Sandbox
import LivePreview.Preview.Status

/-!
# Previews

A preview is built from a store, and built again after the store has changed or a refresh was
requested. A build that fails leaves the document that is live alone.
-/
namespace LivePreview

structure Preview where
  config : Config
  memo : Memo := {}
  registry : Registry := {}
  sandbox : Sandbox := {}
  status : BuildStatus := .idle
  /-- The number of its subscription to the changes of the store that it watches. -/
  subscription : Option Nat := none
  /-- Something happened since the last build. -/
  pending : Bool := false
  builds : Nat := 0
  /-- The document of the last build that was ready. -/
  document : Option Document := none
deriving Repr

/-! ### Assembling a build -/

/-- The first entry point that is a file. -/
def Config.entryFile? (config : Config) (store : Store) : Option Path :=
  config.entryPoints.find? store.isFile

/-- What has been put together from the modules of a build so far. -/
structure Assembly where
  registry : Registry
  registered : Nat := 0
  styles : List Stylesheet := []
  errors : List ModuleError := []

namespace Assembly

def register (assembly : Assembly) (path : Path) (code : String) : Assembly :=
  { assembly with
    registry := (assembly.registry.register path code).1
    registered := assembly.registered + 1 }

/-- Adds a module. A stylesheet gets a handle only when it is among the lazy ones. -/
def add (lazyStyles : List Path) (assembly : Assembly) (m : Module) : Assembly :=
  match m.output with
  | .error error => { assembly with errors := assembly.errors ++ [error] }
  | .ok code =>
    if m.kind = .stylesheet then
      let assembly :=
        if m.path ∈ lazyStyles then assembly.register m.path (stylesheetModule code) else assembly
      { assembly with styles := assembly.styles ++ [⟨m.path, code⟩] }
    else assembly.register m.path code

/-- The modules of a graph, registered in a new generation. -/
def ofGraph (registry : Registry) (graph : ModuleGraph) : Assembly :=
  let lazyStyles := graph.modules.flatMap (·.lazyStyles)
  graph.modules.foldl (add lazyStyles) { registry := registry.startGeneration }

/-- The report on a build, `none` when its entry has no handle. -/
def report? (assembly : Assembly) (config : Config) (graph : ModuleGraph) (memo : MemoStats) :
    Option BuildReport :=
  (assembly.registry.handle? graph.entry).map fun entry =>
    { generation := assembly.registry.generation
      entry := graph.entry
      reachable := graph.modules.length
      registered := assembly.registered
      styles := assembly.styles.length
      importMap := assembly.registry.importMap config entry (graph.modules.flatMap (·.packages))
      memo }

end Assembly

namespace Preview

/-! ### Triggers -/

/-- Asks for a build. An error is no longer shown then. -/
def trigger (preview : Preview) : Preview :=
  { preview with
    status := if preview.status.isFailed then .idle else preview.status
    pending := true }

/-- Subscribes to a store and asks for a first build. -/
def watch (preview : Preview) (store : Store) : Preview × Store :=
  (({ preview with subscription := some store.changes.next } : Preview).trigger, store.subscribe)

def requestRefresh (preview : Preview) : Preview := preview.trigger

/-- The changes of the watched store that have not been collected. -/
def uncollected (preview : Preview) (store : Store) : List Change :=
  ((preview.subscription.bind store.changes.mailbox?).map (·.pending)).getD []

/-- Takes the changes out of the mailbox; any change asks for a build. -/
def collectChanges (preview : Preview) (store : Store) : Preview × Store :=
  let preview' := if (preview.uncollected store).isEmpty then preview else preview.trigger
  match preview.subscription with
  | some subscription =>
    (preview', { store with changes := store.changes.drain subscription })
  | none => (preview', store)

/-! ### Building -/

/-- A build begins. -/
def start (preview : Preview) : Preview :=
  { preview with pending := false, builds := preview.builds + 1, status := .building }

/-- Makes a build live: the sandbox loads it, and all other handles are released. -/
def install (preview : Preview) (assembly : Assembly) (report : BuildReport) : Preview :=
  let document : Document := ⟨report.importMap, assembly.styles⟩
  { preview with
    registry := assembly.registry.install report.generation
    sandbox := preview.sandbox.load document assembly.registry
    document := some document
    status := .ready report }

/-- Gives a build up and releases its handles. -/
def reject (preview : Preview) (assembly : Assembly) (report : Option BuildReport) : Preview :=
  { preview with
    registry := assembly.registry.discard assembly.registry.generation
    status := .failed (assembly.errors.map .module) report }

/-- The modules that an entry file reaches, put together in a new generation. The preview keeps what
is remembered of them. -/
def assemble (preview : Preview) (store : Store) (entry : Path) :
    Preview × ModuleGraph × Assembly :=
  let (memo, graph) := ModuleGraph.walk preview.config store preview.memo.startBuild entry
  ({ preview with memo := memo.finishBuild }, graph, .ofGraph preview.registry graph)

/-- Installs what was put together if it has no errors and its entry has a handle. -/
def conclude (preview : Preview) (graph : ModuleGraph) (assembly : Assembly) : Preview :=
  match assembly.report? preview.config graph preview.memo.stats, assembly.errors with
  | some report, [] => preview.install assembly report
  | report, _ => preview.reject assembly report

/-- Builds the modules that an entry file reaches. -/
def buildFrom (preview : Preview) (store : Store) (entry : Path) : Preview :=
  let (preview, graph, assembly) := preview.assemble store entry
  preview.conclude graph assembly

/-- Builds the preview from the store as it is. -/
def build (preview : Preview) (store : Store) : Preview :=
  let preview := preview.start
  match preview.config.entryFile? store with
  | some entry => preview.buildFrom store entry
  | none => { preview with status := .failed [.missingEntry preview.config.entryPoints] none }

/-- Builds the preview if anything happened since the last build, and answers whether it did. -/
def rebuildIfPending (preview : Preview) (store : Store) : Preview × Store × Bool :=
  let (preview, store) := preview.collectChanges store
  if preview.pending then (preview.build store, store, true) else (preview, store, false)

end Preview

end LivePreview
