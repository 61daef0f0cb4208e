import Mathlib.Data.List.Forall2
import Spl.Program
import Spl.Proofs.Scope.Nearest

/-!
The rules of typing. They relate expressions and variables to their types in
a context, and say which statements are well typed there. They neither fix an
order nor read or write a slot.
-/

namespace Spl

mutual

/-- The type of an expression. Arithmetic and comparisons take integers, and
only comparisons make booleans. -/
inductive Expr.HasType (Γ : Context) : Expr → Ty → Prop
  | int {value : Int32} {position : Position} {slot : Slot} :
      Expr.HasType Γ (.int value position slot) .int
  | var {v : Variable} {ty : Ty} {position : Position} {slot : Slot}
      (h : Variable.HasType Γ v ty) : Expr.HasType Γ (.var v position slot) ty
  | minus {operand : Expr} {position : Position} {slot : Slot}
      (h : Expr.HasType Γ operand .int) :
      Expr.HasType Γ (.unary .minus operand position slot) .int
  | arithmetic {op : BinaryOp} {left right : Expr} {position : Position} {slot : Slot}
      (hop : op ∈ [.add, .sub, .mul, .div]) (hl : Expr.HasType Γ left .int)
      (hr : Expr.HasType Γ right .int) :
      Expr.HasType Γ (.binary op left right position slot) .int
  | comparison {op : BinaryOp} {left right : Expr} {position : Position} {slot : Slot}
      (hop : op ∈ [.equal, .notEqual, .less, .lessEqual, .greater, .greaterEqual])
      (hl : Expr.HasType Γ left .int) (hr : Expr.HasType Γ right .int) :
      Expr.HasType Γ (.binary op left right position slot) .bool

/-- The type of a variable: that of its declaration, or, behind an index, that
of the elements of an array. -/
inductive Variable.HasType (Γ : Context) : Variable → Ty → Prop
  | named {name : String} {ty : Ty} {byReference : Bool} {position : Position} {slot : Slot}
      (h : Γ.Means name (.var ty byReference)) :
      Variable.HasType Γ (.named name position slot) ty
  | element {array : Variable} {index : Expr} {identity : Nat} {size : UInt32} {ty : Ty}
      {position : Position} {slot : Slot}
      (ha : Variable.HasType Γ array (.array identity size ty))
      (hi : Expr.HasType Γ index .int) :
      Variable.HasType Γ (.element array index position slot) ty

end

/-- An argument that a parameter takes: one of the same type, and a variable
if the parameter is passed by reference. -/
def Formal.Takes (Γ : Context) (formal : Formal) (argument : Expr) : Prop :=
  ∃ ty, argument.HasType Γ ty ∧ formal.ty.same ty = true ∧
    (formal.byReference = true → argument.isVariable = true)

/-- A statement that keeps the rules. A call has an argument for each parameter
of the procedure that the name means. -/
inductive Stmt.WellTyped (Γ : Context) : Stmt → Prop
  | empty {position : Position} : WellTyped Γ (.empty position)
  | compound {body : List Stmt} {position : Position} (h : ∀ s ∈ body, WellTyped Γ s) :
      WellTyped Γ (.compound body position)
  | assign {target : Variable} {value : Expr} {position : Position}
      (ht : target.HasType Γ .int) (hv : value.HasType Γ .int) :
      WellTyped Γ (.assign target value position)
  | call {procedure : String} {signature : Signature} {arguments : List Expr}
      {position : Position} (hp : Γ.Means procedure (.procedure signature))
      (ha : List.Forall₂ (Formal.Takes Γ) signature.formals arguments) :
      WellTyped Γ (.call procedure arguments position)
  | conditional {condition : Expr} {thenBranch elseBranch : Stmt} {position : Position}
      (hc : condition.HasType Γ .bool) (ht : WellTyped Γ thenBranch)
      (he : WellTyped Γ elseBranch) :
      WellTyped Γ (.conditional condition thenBranch elseBranch position)
  | loop {condition : Expr} {body : Stmt} {position : Position}
      (hc : condition.HasType Γ .bool) (hb : WellTyped Γ body) :
      WellTyped Γ (.loop condition body position)

/-- A procedure whose body keeps the rules in the scope that the table has
for its name. -/
def Procedure.WellTyped (table : SymbolTable) (p : Procedure) : Prop :=
  ∃ signature, table.get .global p.name = .ok (some (.procedure signature)) ∧
    ∀ s ∈ p.body, s.WellTyped ⟨table, signature.scope⟩

/-- A program all of whose procedures keep the rules. -/
def Program.WellTyped (table : SymbolTable) (p : Program) : Prop :=
  ∀ q ∈ p.procedures, q.WellTyped table

/-! ### Types are unique -/

mutual

theorem Expr.HasType.unique {Γ : Context} {ty₁ ty₂ : Ty} :
    {e : Expr} → e.HasType Γ ty₁ → e.HasType Γ ty₂ → ty₁ = ty₂
  | .int _ _ _, .int, .int => rfl
  | .var _ _ _, .var h₁, .var h₂ => h₁.unique h₂
  | .unary _ _ _ _, .minus _, .minus _ => rfl
  | .binary _ _ _ _ _, .arithmetic .., .arithmetic .. => rfl
  | .binary _ _ _ _ _, .comparison .., .comparison .. => rfl
  | .binary op _ _ _ _, .arithmetic h₁ _ _, .comparison h₂ _ _ => by
      cases op <;> simp at h₁ h₂
  | .binary op _ _ _ _, .comparison h₁ _ _, .arithmetic h₂ _ _ => by
      cases op <;> simp at h₁ h₂

theorem Variable.HasType.unique {Γ : Context} {ty₁ ty₂ : Ty} :
    {v : Variable} → v.HasType Γ ty₁ → v.HasType Γ ty₂ → ty₁ = ty₂
  | .named _ _ _, .named h₁, .named h₂ => by
      cases Context.Means.unique h₁ h₂
      rfl
  | .element _ _ _ _, .element h₁ _, .element h₂ _ => by
      cases h₁.unique h₂
      rfl

end

/-- The two kinds of operators are told apart by what they make. -/
theorem Expr.hasType_binary_iff {Γ : Context} {op : BinaryOp} {left right : Expr}
    {position : Position} {slot : Slot} {ty : Ty} :
    Expr.HasType Γ (.binary op left right position slot) ty ↔
      left.HasType Γ .int ∧ right.HasType Γ .int ∧
        ty = if op ∈ [.add, .sub, .mul, .div] then .int else .bool := by
  constructor
  · intro h
    cases h with
    | arithmetic hop hl hr => exact ⟨hl, hr, (if_pos hop).symm⟩
    | comparison hop hl hr =>
        refine ⟨hl, hr, (if_neg ?_).symm⟩
        cases op <;> simp at hop ⊢
  · rintro ⟨hl, hr, rfl⟩
    split
    · next hop => exact .arithmetic hop hl hr
    · next hop =>
        refine .comparison ?_ hl hr
        cases op <;> simp at hop ⊢

end Spl
