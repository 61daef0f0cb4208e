import Spl.Options

/-!
The arguments of the command once they are read, and what they ask for. How they are read is left
to a reader of arguments, which can end the command by itself.
-/

namespace Spl.Command

/-- The arguments of the command. -/
structure Arguments where
  input : String
  tokens : Bool
  parse : Bool
  tables : Bool
  semant : Bool
  library : Library
  deriving DecidableEq, Repr

namespace Arguments

/-- The phase to stop after. Of several flags, the one for the earliest phase counts. -/
def phase (a : Arguments) : Phase :=
  if a.tokens then .tokens
  else if a.parse then .parse
  else if a.tables then .tables
  else if a.semant then .semant
  else .all

def options (a : Arguments) : Options := ⟨a.phase, a.library⟩

/-- The arguments with the flag for one phase, or with none for the last phase. -/
def upTo (phase : Phase) (library : Library) (input : String) : Arguments where
  input
  tokens := phase == .tokens
  parse := phase == .parse
  tables := phase == .tables
  semant := phase == .semant
  library

@[simp] theorem options_upTo (phase : Phase) (library : Library) (input : String) :
    (upTo phase library input).options = ⟨phase, library⟩ := by
  cases phase <;> rfl

end Arguments

/-- What the command is asked to do. A reader of arguments ends the command itself, with texts of
its own, where it is asked for help or for the version and where the arguments do not make sense. -/
inductive Request
  | analyse (arguments : Arguments)
  | exit (code : UInt32) (output errors : String)
  deriving DecidableEq, Repr

/-- Whether an argument stands for itself and not for an option. A single dash does. -/
def isPlain (argument : String) : Bool :=
  match argument.toList with
  | ['-'] => true
  | '-' :: _ => false
  | _ => true

end Spl.Command
