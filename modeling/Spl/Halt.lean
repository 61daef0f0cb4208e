import Spl.Diagnostic

/-!
The two ways in which work on a source text can end early. A diagnostic blames the text, a fault
blames the use of an operation.
-/

namespace Spl

inductive Halt
  | diagnostic (d : Diagnostic)
  | fault (f : Fault)
  deriving DecidableEq, Repr

/-- Ends the work with a diagnostic. -/
def Cause.halt (cause : Cause) (position : Position) : Halt :=
  .diagnostic ⟨cause, position⟩

end Spl
