/-!
# Quoted JSON text

Writes a text as a JSON string. Quotes, backslashes and control characters are escaped, all else
stands as it is.
-/
namespace LivePreview.Json

/-- A control character by its number, in four hexadecimal digits. -/
def numbered (c : Char) : List Char :=
  let digit (n : Nat) := Nat.digitChar (n % 16)
  ['\\', 'u', '0', '0', digit (c.toNat / 16), digit c.toNat]

def escape (c : Char) : List Char :=
  if c = '"' then ['\\', '"']
  else if c = '\\' then ['\\', '\\']
  else if c = '\x08' then ['\\', 'b']
  else if c = '\t' then ['\\', 't']
  else if c = '\n' then ['\\', 'n']
  else if c = '\x0c' then ['\\', 'f']
  else if c = '\r' then ['\\', 'r']
  else if c.toNat < 0x20 then numbered c
  else [c]

def quote (text : String) : String :=
  String.ofList ('"' :: text.toList.flatMap escape ++ ['"'])

end LivePreview.Json
