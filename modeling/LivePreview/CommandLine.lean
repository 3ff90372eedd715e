/-!
# The command line

Reads the arguments of the program: one script, options with a value behind them or attached to
them, and flags. An option's value is judged when the next argument begins, so of two faults the one
that is noticed first is the error.
-/
namespace LivePreview

/-- How much is logged. -/
inductive LogLevel where
  | trace
  | debug
  | info
  | warn
  | error
  | silent
deriving DecidableEq, Repr

namespace LogLevel

def all : List LogLevel := [trace, debug, info, warn, error, silent]

def name : LogLevel → String
  | trace => "trace"
  | debug => "debug"
  | info => "info"
  | warn => "warn"
  | error => "error"
  | silent => "silent"

def ofName? (name : String) : Option LogLevel := all.find? fun level => level.name = name

/-- The severity from which on messages are shown; `none` when none are. -/
def severity? : LogLevel → Option String
  | trace => some "TRACE"
  | debug => some "DEBUG"
  | info => some "INFO"
  | warn => some "WARN"
  | error => some "ERROR"
  | silent => none

/-- Messages name the module that they come from. -/
def showsOrigin (level : LogLevel) : Bool := level = trace || level = debug

end LogLevel

structure CommandLine where
  script : String
  logLevel : LogLevel := .warn
  /-- The project directory. -/
  root : String := "."
  snapshotIn : Option String := none
  snapshotOut : Option String := none
  printImportMap : Bool := false
deriving DecidableEq, Repr

namespace CommandLine

/-- Why the arguments do not lead to a run. -/
inductive Refusal where
  | unknownArgument
  | invalidValue
  | tooManyValues
  | repeated
  | missingScript
  /-- Help was asked for. -/
  | help
  /-- The version was asked for. -/
  | version
deriving DecidableEq, Repr

/-- What can be set to a value. -/
inductive Setting where
  | script
  | logLevel
  | root
  | snapshotIn
  | snapshotOut
  | printImportMap
deriving DecidableEq, Repr

/-- What an argument that begins with a dash stands for. -/
inductive Switch where
  | option (setting : Setting)
  | flag (setting : Setting)
  | help
  | version
deriving DecidableEq, Repr

def Switch.ofName? : String → Option Switch
  | "log-level" => some (.option .logLevel)
  | "root" => some (.option .root)
  | "snapshot-in" => some (.option .snapshotIn)
  | "snapshot-out" => some (.option .snapshotOut)
  | "print-import-map" => some (.flag .printImportMap)
  | "help" => some .help
  | "version" => some .version
  | _ => none

def Switch.ofLetter? : Char → Option Switch
  | 'l' => some (.option .logLevel)
  | 'r' => some (.option .root)
  | 'h' => some .help
  | 'V' => some .version
  | _ => none

/-- A setting that waits for its value, or for the value that it has to be judged. -/
structure Pending where
  setting : Setting
  value : Option String
deriving DecidableEq, Repr

structure Progress where
  /-- Settings with values that have been judged. -/
  settled : List (Setting × String) := []
  pending : Option Pending := none
deriving DecidableEq, Repr

namespace Progress

/-- A file name is not empty, and a level is one of the known ones. -/
def isValue (setting : Setting) (value : String) : Bool :=
  match setting with
  | .logLevel => (LogLevel.ofName? value).isSome
  | _ => value ≠ ""

/-- Gives a setting the value that it has not had yet. -/
def settle (progress : Progress) (setting : Setting) (value : Option String) :
    Except Refusal Progress :=
  match value with
  | none => .error .invalidValue
  | some value =>
    if progress.settled.any (·.1 = setting) then .error .repeated
    else if isValue setting value then
      .ok { progress with settled := progress.settled ++ [(setting, value)] }
    else .error .invalidValue

/-- Judges the pending value. -/
def flush (progress : Progress) : Except Refusal Progress :=
  match progress.pending with
  | none => .ok progress
  | some ⟨setting, value⟩ => ({ progress with pending := none } : Progress).settle setting value

/-- An option begins. Its value follows unless one is attached. -/
def beginOption (progress : Progress) (setting : Setting) (attached : Option String) :
    Except Refusal Progress := do
  let progress ← progress.flush
  match attached with
  | some value => progress.settle setting (some value)
  | none => .ok { progress with pending := some ⟨setting, none⟩ }

/-- A flag, or a request that ends the run. -/
def useFlag (progress : Progress) (setting : Setting) : Except Refusal Progress := do
  (← progress.flush).settle setting (some "true")

def refuse (progress : Progress) (refusal : Refusal) : Except Refusal Progress := do
  let _ ← progress.flush
  .error refusal

/-- An argument that begins with two dashes, of which `text` is the rest. -/
def long (progress : Progress) (text : List Char) : Except Refusal Progress :=
  let (name, rest) := text.span (· ≠ '=')
  let attached := rest.tail?.map String.ofList
  match Switch.ofName? (String.ofList name), attached with
  | none, _ => .error .unknownArgument
  | some (.option setting), attached => progress.beginOption setting attached
  | some _, some _ => .error .tooManyValues
  | some (.flag setting), none => progress.useFlag setting
  | some .help, none => progress.refuse .help
  | some .version, none => progress.refuse .version

/-- Letters behind one dash. The rest behind an option's letter is its value, with or without an
equals sign in front. -/
def short (progress : Progress) : List Char → Except Refusal Progress
  | [] => .ok progress
  | letter :: rest =>
    match Switch.ofLetter? letter with
    | none => .error .unknownArgument
    | some (.option setting) =>
      let attached :=
        match rest with
        | [] => none
        | '=' :: rest => some (String.ofList rest)
        | rest => some (String.ofList rest)
      progress.beginOption setting attached
    | some (.flag setting) => do (← progress.useFlag setting).short rest
    | some .help => progress.refuse .help
    | some .version => progress.refuse .version

/-- An argument that is no switch: the script, which is given once. -/
def positional (progress : Progress) (argument : String) : Except Refusal Progress :=
  let given :=
    progress.settled.any (·.1 = .script) || progress.pending.any (·.setting = .script)
  if given then .error .unknownArgument
  else do
    let progress ← progress.flush
    .ok { progress with pending := some ⟨.script, some argument⟩ }

/-- The pending option takes the argument as its value. -/
def takeValue (progress : Progress) (argument : String) : Except Refusal Progress :=
  match progress.pending with
  | some ⟨setting, none⟩ => .ok { progress with pending := some ⟨setting, some argument⟩ }
  | _ => progress.positional argument

/-- Reads arguments from left to right. Behind `--` every argument is positional. -/
def read (progress : Progress) : List String → Except Refusal Progress
  | [] => progress.flush
  | argument :: rest =>
    match argument.toList with
    | ['-', '-'] => do
      let progress ← rest.foldlM positional progress
      progress.flush
    | '-' :: '-' :: text => do (← progress.long text).read rest
    | '-' :: letter :: letters => do (← progress.short (letter :: letters)).read rest
    | _ => do (← progress.takeValue argument).read rest

def value? (progress : Progress) (setting : Setting) : Option String :=
  (progress.settled.find? (·.1 = setting)).map (·.2)

/-- The command line that the settings make. -/
def commandLine (progress : Progress) : Except Refusal CommandLine :=
  match progress.value? .script with
  | none => .error .missingScript
  | some script =>
    .ok
      { script
        logLevel := ((progress.value? .logLevel).bind LogLevel.ofName?).getD .warn
        root := (progress.value? .root).getD "."
        snapshotIn := progress.value? .snapshotIn
        snapshotOut := progress.value? .snapshotOut
        printImportMap := (progress.value? .printImportMap).isSome }

end Progress

/-- Reads the arguments of the program, without its name. -/
def parse (arguments : List String) : Except Refusal CommandLine := do
  (← ({} : Progress).read arguments).commandLine

end CommandLine

end LivePreview
