import Spl.Proofs.Fresh
import Spl.Proofs.Typing.Rules

/-!
The steps of checking a body, in the order in which they are made. Parts come
before the whole and left before right, the procedure of a call before its
arguments, and a condition before the branches. A step is made on a node or
between nodes; either it holds by the rules of typing, or checking stops there.
-/

namespace Spl

inductive Step
  /-- The type of an expression, once its parts have theirs. -/
  | expr (e : Expr)
  /-- The type of a variable, once its parts have theirs. -/
  | var (v : Variable)
  /-- The condition of a statement is a boolean. -/
  | condition (e : Expr)
  /-- What is assigned and to what are integers. -/
  | assignment (target : Variable) (value : Expr)
  /-- The name of a called procedure means one. -/
  | callee (procedure : String)
  /-- The called procedure takes the arguments. -/
  | arguments (procedure : String) (es : List Expr)

/-! ### The order of the steps -/

mutual

def Expr.steps : Expr → List Step
  | .int value position slot => [.expr (.int value position slot)]
  | .var v position slot => v.steps ++ [.expr (.var v position slot)]
  | .unary op operand position slot => operand.steps ++ [.expr (.unary op operand position slot)]
  | .binary op left right position slot =>
    left.steps ++ (right.steps ++ [.expr (.binary op left right position slot)])

def Variable.steps : Variable → List Step
  | .named name position slot => [.var (.named name position slot)]
  | .element array index position slot =>
    array.steps ++ (index.steps ++ [.var (.element array index position slot)])

end

/-- The steps of checking the condition of a statement. -/
def conditionSteps (condition : Expr) : List Step :=
  condition.steps ++ [.condition condition]

namespace Stmt

mutual

def steps : Stmt → List Step
  | empty _ => []
  | compound body _ => stepsOfAll body
  | assign target value _ => target.steps ++ (value.steps ++ [.assignment target value])
  | call procedure es _ => .callee procedure :: (es.flatMap Expr.steps ++ [.arguments procedure es])
  | conditional condition thenBranch elseBranch _ =>
    conditionSteps condition ++ (thenBranch.steps ++ elseBranch.steps)
  | loop condition body _ => conditionSteps condition ++ body.steps

def stepsOfAll : List Stmt → List Step
  | [] => []
  | s :: ss => s.steps ++ stepsOfAll ss

end

end Stmt

/-- The steps of checking a procedure. -/
def Procedure.steps (p : Procedure) : List Step :=
  Stmt.stepsOfAll p.body

/-! ### Making steps -/

namespace Step

/-- The rules of typing allow the step. -/
def Holds (Γ : Context) : Step → Prop
  | expr e => ∃ ty, e.HasType Γ ty
  | var v => ∃ ty, v.HasType Γ ty
  | condition e => e.HasType Γ .bool
  | assignment target value => target.HasType Γ .int ∧ value.HasType Γ .int
  | callee procedure => ∃ signature, Γ.Means procedure (.procedure signature)
  | arguments procedure es => ∃ signature, Γ.Means procedure (.procedure signature) ∧
    List.Forall₂ (Formal.Takes Γ) signature.formals es

/-- The step was made: it holds, and a node has got its type. -/
def Done (Γ : Context) : Step → Prop
  | expr e => ∃ ty, e.HasType Γ ty ∧ e.ty = some ty
  | var v => ∃ ty, v.HasType Γ ty ∧ v.ty = some ty
  | step => step.Holds Γ

/-- The step was not made. A node has no type yet. -/
def Unset : Step → Prop
  | expr e => e.ty = none
  | var v => v.ty = none
  | _ => True

end Step

/-- Checking has stopped: all steps before one of them were made, that one does
not hold, and it and all behind it were not made. -/
def Stopped (Γ : Context) (steps : List Step) : Prop :=
  ∃ done step rest, steps = done ++ step :: rest ∧ (∀ s ∈ done, s.Done Γ) ∧ ¬step.Holds Γ ∧
    ∀ s ∈ step :: rest, s.Unset

namespace Stopped

variable {Γ : Context} {steps : List Step}

/-- The first of the steps does not hold. -/
theorem here {step : Step} {rest : List Step} (h : ¬step.Holds Γ) (hstep : step.Unset)
    (hrest : ∀ s ∈ rest, s.Unset) : Stopped Γ (step :: rest) :=
  ⟨[], step, rest, rfl, by simp, h, List.forall_mem_cons.mpr ⟨hstep, hrest⟩⟩

/-- The only step does not hold. -/
theorem last {step : Step} (h : ¬step.Holds Γ) (hstep : step.Unset) : Stopped Γ [step] :=
  .here h hstep fun _ hs => absurd hs List.not_mem_nil

theorem prepend {done : List Step} (h : Stopped Γ steps) (hdone : ∀ s ∈ done, s.Done Γ) :
    Stopped Γ (done ++ steps) := by
  obtain ⟨done', step, rest, rfl, hdone', hstep, hrest⟩ := h
  refine ⟨done ++ done', step, rest, by simp, ?_, hstep, hrest⟩
  exact List.forall_mem_append.mpr ⟨hdone, hdone'⟩

theorem cons {step : Step} (h : Stopped Γ steps) (hstep : step.Done Γ) :
    Stopped Γ (step :: steps) :=
  h.prepend (List.forall_mem_singleton.mpr hstep)

theorem append {rest : List Step} (h : Stopped Γ steps) (hrest : ∀ s ∈ rest, s.Unset) :
    Stopped Γ (steps ++ rest) := by
  obtain ⟨done, step, rest', rfl, hdone, hstep, hrest'⟩ := h
  refine ⟨done, step, rest' ++ rest, by simp, hdone, hstep, ?_⟩
  rw [← List.cons_append]
  exact List.forall_mem_append.mpr ⟨hrest', hrest⟩

theorem concat {step : Step} (h : Stopped Γ steps) (hstep : step.Unset) :
    Stopped Γ (steps ++ [step]) :=
  h.append (List.forall_mem_singleton.mpr hstep)

end Stopped

/-! ### Before the first step -/

theorem forall_mem_concat {α : Type} {P : α → Prop} {xs : List α} {a : α} (h : ∀ x ∈ xs, P x)
    (ha : P a) : ∀ x ∈ xs ++ [a], P x :=
  List.forall_mem_append.mpr ⟨h, List.forall_mem_singleton.mpr ha⟩

mutual

theorem Expr.unset_of_fresh : (e : Expr) → e.Fresh → ∀ step ∈ e.steps, step.Unset
  | .int _ _ _, h => List.forall_mem_singleton.mpr h
  | .var v _ _, ⟨hv, hslot⟩ =>
      forall_mem_concat (Variable.unset_of_fresh v hv) hslot
  | .unary _ operand _ _, ⟨hoperand, hslot⟩ =>
      forall_mem_concat (Expr.unset_of_fresh operand hoperand) hslot
  | .binary _ left right _ _, ⟨hleft, hright, hslot⟩ =>
      List.forall_mem_append.mpr ⟨Expr.unset_of_fresh left hleft,
        forall_mem_concat (Expr.unset_of_fresh right hright) hslot⟩

theorem Variable.unset_of_fresh : (v : Variable) → v.Fresh → ∀ step ∈ v.steps, step.Unset
  | .named _ _ _, h => List.forall_mem_singleton.mpr h
  | .element array index _ _, ⟨harray, hindex, hslot⟩ =>
      List.forall_mem_append.mpr ⟨Variable.unset_of_fresh array harray,
        forall_mem_concat (Expr.unset_of_fresh index hindex) hslot⟩

end

theorem unset_of_fresh_arguments {es : List Expr} (h : ∀ e ∈ es, e.Fresh) :
    ∀ step ∈ es.flatMap Expr.steps, step.Unset := by
  intro step hstep
  obtain ⟨e, he, hstep⟩ := List.mem_flatMap.mp hstep
  exact e.unset_of_fresh (h e he) step hstep

theorem unset_of_fresh_condition {condition : Expr} (h : condition.Fresh) :
    ∀ step ∈ conditionSteps condition, step.Unset :=
  forall_mem_concat (condition.unset_of_fresh h) trivial

namespace Stmt

mutual

theorem unset_of_fresh : (s : Stmt) → s.Fresh → ∀ step ∈ s.steps, step.Unset
  | .empty _, _ => fun _ h => absurd h List.not_mem_nil
  | .compound body _, .compound h => unset_of_fresh_all body h
  | .assign target value _, .assign ht hv =>
      List.forall_mem_append.mpr ⟨target.unset_of_fresh ht,
        forall_mem_concat (value.unset_of_fresh hv) trivial⟩
  | .call _ _ _, .call h =>
      List.forall_mem_cons.mpr ⟨trivial,
        forall_mem_concat (unset_of_fresh_arguments h) trivial⟩
  | .conditional _ thenBranch elseBranch _, .conditional hc ht he =>
      List.forall_mem_append.mpr ⟨unset_of_fresh_condition hc, List.forall_mem_append.mpr
        ⟨unset_of_fresh thenBranch ht, unset_of_fresh elseBranch he⟩⟩
  | .loop _ body _, .loop hc hb =>
      List.forall_mem_append.mpr ⟨unset_of_fresh_condition hc, unset_of_fresh body hb⟩

theorem unset_of_fresh_all :
    (ss : List Stmt) → (∀ s ∈ ss, s.Fresh) → ∀ step ∈ stepsOfAll ss, step.Unset
  | [], _ => fun _ h => absurd h List.not_mem_nil
  | s :: ss, h => by
      obtain ⟨hs, hss⟩ := List.forall_mem_cons.mp h
      exact List.forall_mem_append.mpr ⟨unset_of_fresh s hs, unset_of_fresh_all ss hss⟩

end

end Stmt

end Spl
