import Spl.Slot

/-!
Types as they are written in a source: the name of a declared type, or an array of a size and an
element type.
-/

namespace Spl

inductive TypeExpr
  | named (name : String) (position : Position) (ty : Slot)
  | array (size : UInt32) (element : TypeExpr) (position : Position) (ty : Slot)
  deriving DecidableEq, Repr

namespace TypeExpr

def position : TypeExpr → Position
  | named _ position _ => position
  | array _ _ position _ => position

/-- The type that was found for the whole type expression. -/
def ty : TypeExpr → Slot
  | named _ _ ty => ty
  | array _ _ _ ty => ty

end TypeExpr

end Spl
