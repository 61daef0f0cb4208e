/-!
What an analysis is asked to do.
-/

namespace Spl

/-- The phase after which work on a source stops. -/
inductive Phase
  | tokens
  | parse
  | tables
  | semant
  | all
  deriving DecidableEq, Repr

/-- The procedures that a program finds declared. -/
inductive Library
  | standard
  | graphics
  deriving DecidableEq, Repr

structure Options where
  phase : Phase
  library : Library
  deriving DecidableEq, Repr

namespace Options

def default : Options := ⟨.all, .graphics⟩

/-- Whether the table of each procedure is written out once it is complete. -/
def listsTables (o : Options) : Bool := o.phase == .tables

end Options

end Spl
