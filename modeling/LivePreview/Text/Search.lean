/-!
# Substrings

Finding, counting and replacing a text within a text. Occurrences are counted from left to right,
each behind the end of the one before.
-/
namespace LivePreview.Text

/-- The parts before and behind the first occurrence of `pattern`. -/
def splitFirst? (pattern : List Char) : List Char → Option (List Char × List Char)
  | [] => if pattern.isEmpty then some ([], []) else none
  | c :: rest =>
    if pattern.isPrefixOf (c :: rest) then some ([], (c :: rest).drop pattern.length)
    else (splitFirst? pattern rest).map fun (before, behind) => (c :: before, behind)

/-- Occurrences of a pattern that is not empty, after `skip` further characters. -/
def occurrencesFrom (pattern : List Char) (skip : Nat) : List Char → Nat
  | [] => 0
  | c :: rest =>
    match skip with
    | skip + 1 => occurrencesFrom pattern skip rest
    | 0 =>
      if pattern.isPrefixOf (c :: rest) then occurrencesFrom pattern (pattern.length - 1) rest + 1
      else occurrencesFrom pattern 0 rest

def occurrences (pattern text : String) : Nat := occurrencesFrom pattern.toList 0 text.toList

/-- The text with the first occurrence of `pattern` replaced. -/
def replaceFirst (pattern replacement text : String) : String :=
  match splitFirst? pattern.toList text.toList with
  | none => text
  | some (before, behind) => String.ofList (before ++ replacement.toList ++ behind)

/-- The pieces of a text between line feeds. -/
def splitLines (text : String) : List String := (text.toList.splitOn '\n').map String.ofList

def joinLines (lines : List String) : String := "\n".intercalate lines

end LivePreview.Text
