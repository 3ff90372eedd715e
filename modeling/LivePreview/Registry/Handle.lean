/-!
# Handles

The address of one module's code. Its generation is part of it, so that the handles of different
generations differ.
-/
namespace LivePreview

structure Handle where
  generation : Nat
  /-- The place among the modules of its generation, counted from zero. -/
  sequence : Nat
deriving DecidableEq, Repr

/-- The digits of a number in base sixteen. -/
def hexadecimal (n : Nat) : String := String.ofList (Nat.toDigits 16 n)

def Handle.text (handle : Handle) : String :=
  "blob:preview/" ++ hexadecimal handle.generation ++ "-" ++ hexadecimal handle.sequence

/-- The error of asking for the code of a handle that is not live. -/
def Handle.releasedMessage (handle : Handle) : String :=
  "Resource " ++ handle.text ++ " has been released"

end LivePreview
