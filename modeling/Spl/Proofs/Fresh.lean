import Spl.Program

/-!
Nodes without types. A node is fresh if neither its own slot nor any slot
inside of it is written. This is how nodes are before the passes that find
the types.
-/

namespace Spl

def TypeExpr.Fresh : TypeExpr → Prop
  | .named _ _ slot => slot = none
  | .array _ element _ slot => element.Fresh ∧ slot = none

mutual

def Expr.Fresh : Expr → Prop
  | .int _ _ slot => slot = none
  | .var v _ slot => v.Fresh ∧ slot = none
  | .unary _ operand _ slot => operand.Fresh ∧ slot = none
  | .binary _ left right _ slot => left.Fresh ∧ right.Fresh ∧ slot = none

def Variable.Fresh : Variable → Prop
  | .named _ _ slot => slot = none
  | .element array index _ slot => array.Fresh ∧ index.Fresh ∧ slot = none

end

inductive Stmt.Fresh : Stmt → Prop
  | empty {position : Position} : Fresh (.empty position)
  | compound {body : List Stmt} {position : Position} (h : ∀ s ∈ body, Fresh s) :
      Fresh (.compound body position)
  | assign {target : Variable} {value : Expr} {position : Position} (ht : target.Fresh)
      (hv : value.Fresh) : Fresh (.assign target value position)
  | call {procedure : String} {arguments : List Expr} {position : Position}
      (h : ∀ e ∈ arguments, e.Fresh) : Fresh (.call procedure arguments position)
  | conditional {condition : Expr} {thenBranch elseBranch : Stmt} {position : Position}
      (hc : condition.Fresh) (ht : Fresh thenBranch) (he : Fresh elseBranch) :
      Fresh (.conditional condition thenBranch elseBranch position)
  | loop {condition : Expr} {body : Stmt} {position : Position} (hc : condition.Fresh)
      (hb : Fresh body) : Fresh (.loop condition body position)

structure Procedure.Fresh (p : Procedure) : Prop where
  parameters : ∀ q ∈ p.parameters, q.type.Fresh
  locals : ∀ v ∈ p.locals, v.type.Fresh
  body : ∀ s ∈ p.body, s.Fresh

def Declaration.Fresh : Declaration → Prop
  | .type d => d.type.Fresh
  | .procedure p => p.Fresh

def Program.Fresh (p : Program) : Prop :=
  ∀ d ∈ p.declarations, d.Fresh

end Spl
