/-!
Operators of expressions. Arithmetic and comparisons are both defined on integers only.
-/

namespace Spl

inductive UnaryOp
  | minus
  deriving DecidableEq, Repr

inductive BinaryOp
  | add
  | sub
  | mul
  | div
  | equal
  | notEqual
  | less
  | lessEqual
  | greater
  | greaterEqual
  deriving DecidableEq, Repr

namespace UnaryOp

def text : UnaryOp → String
  | minus => "-"

def name : UnaryOp → String
  | minus => "Minus"

end UnaryOp

namespace BinaryOp

def text : BinaryOp → String
  | add => "+"
  | sub => "-"
  | mul => "*"
  | div => "/"
  | equal => "="
  | notEqual => "#"
  | less => "<"
  | lessEqual => "<="
  | greater => ">"
  | greaterEqual => ">="

/-- The operator as outlines name it. -/
def name : BinaryOp → String
  | add => "Add"
  | sub => "Sub"
  | mul => "Mul"
  | div => "Div"
  | equal => "Equ"
  | notEqual => "Neq"
  | less => "Lst"
  | lessEqual => "Lse"
  | greater => "Grt"
  | greaterEqual => "Gre"

def isArithmetic : BinaryOp → Bool
  | add | sub | mul | div => true
  | _ => false

def isComparison (op : BinaryOp) : Bool := !op.isArithmetic

end BinaryOp

end Spl
