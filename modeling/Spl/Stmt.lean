import Spl.Expr

/-!
Statements of procedure bodies.
-/

namespace Spl

inductive Stmt
  /-- Also stands for an `else` branch that is not there. -/
  | empty (position : Position)
  | compound (body : List Stmt) (position : Position)
  | assign (target : Variable) (value : Expr) (position : Position)
  | call (procedure : String) (arguments : List Expr) (position : Position)
  | conditional (condition : Expr) (thenBranch elseBranch : Stmt) (position : Position)
  | loop (condition : Expr) (body : Stmt) (position : Position)

namespace Stmt

def position : Stmt → Position
  | empty position => position
  | compound _ position => position
  | assign _ _ position => position
  | call _ _ position => position
  | conditional _ _ _ position => position
  | loop _ _ position => position

end Stmt

end Spl
