import LivePreview.Preview.Status

/-!
# Status text

The summary of a session for people to read, with or without terminal colours.
-/
namespace LivePreview

/-- A text between the escape sequences that set a style and end it. -/
def styled (colour : Bool) (style text : String) : String :=
  if colour then "\x1b[" ++ style ++ "m" ++ text ++ "\x1b[0m" else text

/-- The styles of the summary, as parameters of the escape sequence. -/
def boldRed : String := "1;31"
def boldGreen : String := "1;32"
def boldYellow : String := "1;33"
def dimmed : String := "2"

def BuildReport.lines (report : BuildReport) : List String :=
  ["  entry:      " ++ report.entry.text,
   "  generation: " ++ toString report.generation,
   "  modules:    " ++ toString report.registered ++ " registered of " ++
     toString report.reachable ++ " reachable, " ++ toString report.styles ++ " stylesheets",
   "  cache:      " ++ toString report.memo.hits ++ " hits, " ++ toString report.memo.misses ++
     " misses"]

def BuildStatus.lines (colour : Bool) : BuildStatus → List String
  | .idle | .building => [styled colour boldYellow "•" ++ " No preview build ran"]
  | .ready report => (styled colour boldGreen "✔" ++ " Preview ready") :: report.lines
  | .failed errors report =>
    let noun := if errors.length = 1 then "error" else "errors"
    let heading :=
      styled colour boldRed "✘" ++ " Preview failed with " ++ toString errors.length ++ " " ++ noun
    let rest :=
      match report with
      | some report => styled colour dimmed "Best-effort build:" :: report.lines
      | none => []
    heading :: errors.map (fun error => "  " ++ error.report) ++ rest

/-- The summary of a status after some commands were rejected; every line ends in a line feed. -/
def BuildStatus.render (status : BuildStatus) (colour : Bool) (rejected : Nat) : String :=
  let warnings :=
    if rejected = 0 then []
    else
      [styled colour boldYellow "WARN" ++ " " ++ toString rejected ++
        " commands were rejected by the store"]
  String.join ((status.lines colour ++ warnings).map (· ++ "\n"))

end LivePreview
