import LivePreview.Application
import LivePreview.CommandLine

/-!
# The program

Reads the files that the command line names, runs the application on their contents, prints what it
answers and writes the snapshot.
-/
namespace LivePreview

def usage : String :=
  "\n".intercalate
    ["Replays a scripted editing session on two store replicas and builds the preview of the replica",
     "",
     "Usage: live-preview [OPTIONS] <SCRIPT>",
     "",
     "Arguments:",
     "  <SCRIPT>  YAML file with the commands to replay",
     "",
     "Options:",
     "  -l, --log-level <LOG_LEVEL>        trace, debug, info, warn, error or silent [default: warn]",
     "  -r, --root <ROOT>                  The project directory holding preview.yaml [default: .]",
     "      --snapshot-in <SNAPSHOT_IN>    Start from this snapshot instead of an empty store",
     "      --snapshot-out <SNAPSHOT_OUT>  Write the final store snapshot here",
     "      --print-import-map             Print the import map document of the last build",
     "  -h, --help                         Print help",
     "  -V, --version                      Print version"]

def CommandLine.Refusal.text : CommandLine.Refusal → String
  | unknownArgument => "error: unexpected argument found"
  | invalidValue => "error: invalid or missing value for an argument"
  | tooManyValues => "error: unexpected value for a flag"
  | repeated => "error: an argument cannot be used multiple times"
  | missingScript => "error: the following required arguments were not provided: <SCRIPT>"
  | help => usage
  | version => "live-preview 0.1.0"

/-- A file name below a directory. -/
def below (directory name : String) : String :=
  if directory.endsWith "/" then directory ++ name else directory ++ "/" ++ name

def readFile (name : String) : IO FileContent := do
  try
    let content ← IO.FS.readBinFile name
    return .bytes content.data.toList
  catch
    | .noFileOrDirectory .. => return .absent
    | _ => return .unreadable

/-- Writes a file and creates the directories above it. -/
def writeFile (name : String) (bytes : Binary.Bytes) : IO Unit := do
  let directory := "/".intercalate (Path.splitNames name).dropLast
  if directory ≠ "" then IO.FS.createDirAll directory
  IO.FS.writeBinFile name ⟨bytes.toArray⟩

def logDebug (level : LogLevel) (text : String) : IO Unit := do
  if level.showsOrigin then IO.eprintln ("DEBUG live_preview: " ++ text)

def fail (text : String) (cause : Option String) : IO UInt32 := do
  IO.eprintln ("Error: " ++ text)
  if let some cause := cause then IO.eprintln ("Caused by: " ++ cause)
  return 1

def runCommandLine (line : CommandLine) : IO UInt32 := do
  let configName := below line.root "preview.yaml"
  let input : RunInput :=
    { config := ⟨configName, ← readFile configName⟩
      script := ⟨line.script, ← readFile line.script⟩
      snapshot := ← line.snapshotIn.mapM readFile
      printImportMap := line.printImportMap
      colour := ← (← IO.getStdout).isTty }
  match Application.run input with
  | .error error => fail error.message error.cause?
  | .ok outcome =>
    if let some name := line.snapshotOut then
      try writeFile name outcome.snapshot.toBytes
      catch _ =>
        let error : ApplicationError := .snapshot .unreadable
        return ← fail error.message error.cause?
    IO.print outcome.output
    logDebug line.logLevel <|
      "Session left " ++ toString outcome.snapshot.entries.length ++ " snapshot entries, " ++
        toString outcome.rejected ++ " commands rejected"
    return 0

end LivePreview

def main (arguments : List String) : IO UInt32 := do
  match LivePreview.CommandLine.parse arguments with
  | .ok line => LivePreview.runCommandLine line
  | .error .help => IO.println (LivePreview.CommandLine.Refusal.text .help); return 0
  | .error .version => IO.println (LivePreview.CommandLine.Refusal.text .version); return 0
  | .error refusal => IO.eprintln refusal.text; return 2
