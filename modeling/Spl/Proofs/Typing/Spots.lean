import Spl.Proofs.Typing.Rules

/-!
The nodes of procedure bodies, each with the place where it stands. A spot is
an expression or a variable together with its place; `spots` lists all spots
of a statement, at any depth.
-/

namespace Spl

/-- The places where an expression can stand. -/
inductive ExprPlace
  | condition
  | assigned
  /-- The argument of the given index in a call. -/
  | argument (procedure : String) (index : Nat)
  | operand
  | index
  deriving DecidableEq

/-- The places where a variable can stand. -/
inductive VariablePlace
  | target
  /-- As an expression that stands at the given place. -/
  | read (place : ExprPlace)
  /-- Before an index. -/
  | indexed
  deriving DecidableEq

inductive Spot
  | expr (place : ExprPlace) (e : Expr)
  | var (place : VariablePlace) (v : Variable)
  deriving DecidableEq

namespace Spot

/-- The type that is written into the node. -/
def ty : Spot → Slot
  | expr _ e => e.ty
  | var _ v => v.ty

/-- The type that the rules give the node. -/
def HasType (Γ : Context) : Spot → Ty → Prop
  | expr _ e => e.HasType Γ
  | var _ v => v.HasType Γ

/-- The type that the rules give the node is written into it. -/
def Annotated (Γ : Context) (spot : Spot) : Prop :=
  ∃ ty, spot.HasType Γ ty ∧ spot.ty = some ty

end Spot

mutual

/-- An expression at a place, and all that is inside of it. -/
def Expr.spots (place : ExprPlace) : Expr → List Spot
  | .int value position slot => [.expr place (.int value position slot)]
  | .var v position slot => .expr place (.var v position slot) :: v.spots (.read place)
  | .unary op operand position slot =>
    .expr place (.unary op operand position slot) :: operand.spots .operand
  | .binary op left right position slot =>
    .expr place (.binary op left right position slot) ::
      (left.spots .operand ++ right.spots .operand)

/-- A variable at a place, and all that is inside of it. -/
def Variable.spots (place : VariablePlace) : Variable → List Spot
  | .named name position slot => [.var place (.named name position slot)]
  | .element array index position slot =>
    .var place (.element array index position slot) ::
      (array.spots .indexed ++ index.spots .index)

end

/-- The arguments of a call from the argument of the given index on. -/
def argumentSpots (procedure : String) : Nat → List Expr → List Spot
  | _, [] => []
  | index, argument :: arguments =>
    argument.spots (.argument procedure index) ++ argumentSpots procedure (index + 1) arguments

mutual

/-- All expressions and variables of a statement. -/
def Stmt.spots : Stmt → List Spot
  | .empty _ => []
  | .compound body _ => spotsOfAll body
  | .assign target value _ => target.spots .target ++ value.spots .assigned
  | .call procedure arguments _ => argumentSpots procedure 0 arguments
  | .conditional condition thenBranch elseBranch _ =>
    condition.spots .condition ++ (thenBranch.spots ++ elseBranch.spots)
  | .loop condition body _ => condition.spots .condition ++ body.spots

def spotsOfAll : List Stmt → List Spot
  | [] => []
  | s :: ss => s.spots ++ spotsOfAll ss

end

/-- All expressions and variables of a procedure. -/
def Procedure.spots (p : Procedure) : List Spot :=
  spotsOfAll p.body

/-- Every argument of a call stands at its index. -/
theorem mem_argumentSpots {procedure : String} {first : Nat} {arguments : List Expr} {spot : Spot} :
    spot ∈ argumentSpots procedure first arguments ↔
      ∃ (i : Nat) (e : Expr), arguments[i]? = some e ∧
        spot ∈ e.spots (.argument procedure (first + i)) := by
  induction arguments generalizing first with
  | nil => simp [argumentSpots]
  | cons argument arguments ih =>
      rw [argumentSpots, List.mem_append, ih]
      constructor
      · rintro (h | ⟨i, e, he, h⟩)
        · exact ⟨0, argument, rfl, h⟩
        · refine ⟨i + 1, e, by simpa using he, ?_⟩
          rwa [show first + (i + 1) = first + 1 + i by omega]
      · rintro ⟨i, e, he, h⟩
        cases i with
        | zero =>
            obtain rfl : argument = e := by simpa using he
            exact .inl h
        | succ i =>
            refine .inr ⟨i, e, by simpa using he, ?_⟩
            rwa [show first + 1 + i = first + (i + 1) by omega]

end Spl
