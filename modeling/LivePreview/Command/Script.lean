import LivePreview.Command
import LivePreview.Yaml.Node

/-!
# Command scripts

A script is a YAML document with a list of steps: commands to carry out, and requests to refresh the
preview. The first entry that is no step is named in the error.
-/
namespace LivePreview

inductive ScriptStep where
  | command (command : Command)
  | refresh
deriving DecidableEq, Repr

structure CommandScript where
  steps : List ScriptStep := []
deriving DecidableEq, Repr

/-- Why an entry of the list is no step. -/
inductive StepDefect where
  | notMapping
  | missing (field : String)
  | notText (field : String)
  | unknownOperation (name : String)
  | lineNegative
  | lineNotNumber
deriving DecidableEq, Repr

namespace StepDefect

def reason : StepDefect → String
  | notMapping => "entry should be a map"
  | missing field => "missing '" ++ field ++ "'"
  | notText field => "'" ++ field ++ "' should be text"
  | unknownOperation name => "unknown op '" ++ name ++ "'"
  | lineNegative => "'line' should not be negative"
  | lineNotNumber => "'line' should be a number"

end StepDefect

inductive ScriptError where
  | unreadable (file : String)
  | notText (file : String)
  | notYaml (fault : Yaml.Fault)
  | noCommands
  | topLevelNotMapping
  | commandsNotList
  | invalidEntry (index : Nat) (defect : StepDefect)
deriving DecidableEq, Repr

namespace ScriptError

def message : ScriptError → String
  | unreadable file => "Failed to read the command script: " ++ file
  | notText file => "Command script " ++ file ++ " is not valid UTF-8"
  | notYaml _ => "Failed to parse the command script"
  | noCommands => "Command script should contain a 'commands' list"
  | topLevelNotMapping => "Top level of the command script should be a map"
  | commandsNotList => "'commands' should be a list"
  | invalidEntry index defect =>
    "Command #" ++ toString index ++ " is invalid: " ++ defect.reason

end ScriptError

namespace ScriptStep

/-- The entries of a mapping that describes a step. -/
abbrev Fields := List (Yaml.Node × Yaml.Node)

/-- A field that may be absent, but is text when it is there. -/
def optionalText (fields : Fields) (name : String) : Except StepDefect (Option String) :=
  match Yaml.Node.field? name fields with
  | none => .ok none
  | some node =>
    match node.scalarText? with
    | some text => .ok (some text)
    | none => .error (.notText name)

def requiredText (fields : Fields) (name : String) : Except StepDefect String := do
  match ← optionalText fields name with
  | some text => .ok text
  | none => .error (.missing name)

def requiredLine (fields : Fields) : Except StepDefect UInt64 :=
  match Yaml.Node.field? "line" fields with
  | none => .error (.missing "line")
  | some (.scalar (.integer line)) =>
    if line < 0 then .error .lineNegative else .ok (UInt64.ofNat line.toNat)
  | some _ => .error .lineNotNumber

/-- The step that an operation's name and fields describe. Only the content of a new file may be left
out. -/
def ofFields (fields : Fields) : Except StepDefect ScriptStep := do
  let text := requiredText fields
  match ← text "op" with
  | "create" =>
    let path ← text "path"
    let content ← optionalText fields "content"
    .ok (.command (.createFile path (content.getD "")))
  | "update" => .ok (.command (.updateFile (← text "path") (← text "content")))
  | "mkdir" => .ok (.command (.createDirectory (← text "path")))
  | "delete" => .ok (.command (.deleteFile (← text "path")))
  | "rmdir" => .ok (.command (.deleteDirectory (← text "path")))
  | "rename" => .ok (.command (.rename (← text "from") (← text "to")))
  | "replace" =>
    .ok (.command (.replaceInFile (← text "path") (← text "old") (← text "new")))
  | "insert" =>
    let path ← text "path"
    let line ← requiredLine fields
    .ok (.command (.insertInFile path line (← text "text")))
  | "refresh" => .ok .refresh
  | name => .error (.unknownOperation name)

def ofNode (node : Yaml.Node) : Except StepDefect ScriptStep :=
  match node.entries? with
  | some fields => ofFields fields
  | none => .error .notMapping

end ScriptStep

namespace CommandScript

def commands (script : CommandScript) : List Command :=
  script.steps.filterMap fun
    | .command command => some command
    | .refresh => none

/-- The steps of a list whose first entry has the number `index`. -/
def stepsFrom (index : Nat) : List Yaml.Node → Except ScriptError (List ScriptStep)
  | [] => .ok []
  | node :: rest => do
    let step ← (ScriptStep.ofNode node).mapError (.invalidEntry index)
    let steps ← stepsFrom (index + 1) rest
    .ok (step :: steps)

/-- The script that the document describes. -/
def ofDocument (document : Yaml.Node) : Except ScriptError CommandScript :=
  match document.entries? with
  | none => .error .topLevelNotMapping
  | some entries =>
    match Yaml.Node.field? "commands" entries with
    | none => .error .noCommands
    | some node =>
      match node.items? with
      | none => .error .commandsNotList
      | some items => (stepsFrom 0 items).map CommandScript.mk

/-- Reads the first document of a stream. -/
def parse (text : String) : Except ScriptError CommandScript := do
  match ← (Yaml.documents text).mapError .notYaml with
  | [] => .error .noCommands
  | document :: _ => ofDocument document

end CommandScript

end LivePreview
