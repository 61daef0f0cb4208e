import Spl.Operator
import Spl.Slot

/-!
Expressions, and the variables that they read and that assignments write: a name, or an element of
an array variable.
-/

namespace Spl

mutual

inductive Expr
  | int (value : Int32) (position : Position) (ty : Slot)
  | var (v : Variable) (position : Position) (ty : Slot)
  | unary (op : UnaryOp) (operand : Expr) (position : Position) (ty : Slot)
  | binary (op : BinaryOp) (left right : Expr) (position : Position) (ty : Slot)

inductive Variable
  | named (name : String) (position : Position) (ty : Slot)
  | element (array : Variable) (index : Expr) (position : Position) (ty : Slot)

end

deriving instance DecidableEq, Repr for Expr, Variable

namespace Expr

def position : Expr → Position
  | int _ position _ => position
  | var _ position _ => position
  | unary _ _ position _ => position
  | binary _ _ _ position _ => position

def ty : Expr → Slot
  | int _ _ ty => ty
  | var _ _ ty => ty
  | unary _ _ _ ty => ty
  | binary _ _ _ _ ty => ty

/-- Whether the expression names storage, which can be passed by reference. -/
def isVariable : Expr → Bool
  | var _ _ _ => true
  | _ => false

end Expr

namespace Variable

def position : Variable → Position
  | named _ position _ => position
  | element _ _ position _ => position

def ty : Variable → Slot
  | named _ _ ty => ty
  | element _ _ _ ty => ty

end Variable

end Spl
