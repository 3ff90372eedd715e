import LivePreview.Config
import LivePreview.Source.Dialect

/-!
# Module kinds

What a file is to those who import it, told by its extension.
-/
namespace LivePreview

inductive ModuleKind where
  | script (dialect : Source.Dialect)
  /-- Text for the styles of the page. -/
  | stylesheet
  /-- One default export. -/
  | json
  /-- Served as it is. -/
  | asset
deriving DecidableEq, Repr

/-- The extensions of scripts come first, so a configuration may take over any other. -/
def ModuleKind.ofPath (config : Config) (path : Path) : ModuleKind :=
  match path.extension? with
  | none => .asset
  | some extension =>
    if config.isScriptExtension extension then .script (.ofExtension extension)
    else if extension = ".css" then .stylesheet
    else if extension = ".json" then .json
    else .asset

end LivePreview
