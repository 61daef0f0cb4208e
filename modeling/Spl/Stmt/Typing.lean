import Spl.Expr.Typing
import Spl.Stmt

/-!
The rules that statements keep: assignments and conditions have the right types, and calls agree
with what the procedure declares.
-/

namespace Spl

open Outcome

/-- Compares the types of a target and of a value. Only integers can be assigned. -/
def assignable (targetTy valueTy : Ty) (position : Position) : Except Halt Unit :=
  if !targetTy.same valueTy then
    .error (Cause.halt (.illegalAssignment targetTy.text valueTy.text) position)
  else if !targetTy.isInt then .error (Cause.halt .illegalAssignmentToArray position)
  else .ok ()

/-- Compares arguments with the parameters they stand for, from the argument of the given index on.
An argument for a reference parameter has to be a variable. -/
def argumentsAgree (procedure : String) (position : Position) :
    Nat → List Formal → List Expr → List Ty → Except Halt Unit
  | index, formal :: formals, argument :: arguments, ty :: tys =>
    if formal.byReference && !argument.isVariable then
      .error (Cause.halt (.argumentMustBeAVariable procedure index) position)
    else if !formal.ty.same ty then
      .error (Cause.halt (.argumentTypeMismatch procedure index formal.ty.text ty.text) position)
    else argumentsAgree procedure position (index + 1) formals arguments tys
  | _, _, _, _ => .ok ()

/-- Compares the arguments of a call, whose types are known, with a signature. -/
def callable (signature : Signature) (procedure : String) (arguments : List Expr) (tys : List Ty)
    (position : Position) : Except Halt Unit :=
  if signature.formals.length < arguments.length then
    .error (Cause.halt (.tooManyArguments procedure) position)
  else if arguments.length < signature.formals.length then
    .error (Cause.halt (.tooFewArguments procedure) position)
  else argumentsAgree procedure position 0 signature.formals arguments tys

/-- Checks the condition of a statement at `position`. Only a boolean is a condition. -/
def checkCondition (Γ : Context) (condition : Expr) (cause : String → Cause)
    (position : Position) : Outcome Expr Unit :=
  (condition.check Γ).andThen id fun condition ty =>
    ⟨condition,
      if ty.isBool then .ok () else .error (Cause.halt (cause ty.text) position)⟩

namespace Stmt

mutual

/-- Checks a statement: parts before the whole, in the order in which they stand. The procedure of
a call is looked up before the arguments are checked. -/
def check (Γ : Context) : Stmt → Outcome Stmt Unit
  | empty position => ⟨empty position, .ok ()⟩
  | compound body position => (checkAll Γ body).map (compound · position) id
  | assign target value position =>
    (target.check Γ).andThen (assign · value position) fun target targetTy =>
    (value.check Γ).andThen (assign target · position) fun value valueTy =>
      ⟨assign target value position, assignable targetTy valueTy position⟩
  | call procedure arguments position =>
    match Γ.procedureNamed procedure position with
    | .error halt => ⟨call procedure arguments position, .error halt⟩
    | .ok signature =>
      (visitAll (Expr.check Γ) arguments).andThen (call procedure · position) fun arguments tys =>
        ⟨call procedure arguments position, callable signature procedure arguments tys position⟩
  | conditional condition thenBranch elseBranch position =>
    (checkCondition Γ condition .ifConditionMustBeBoolean position).andThen
      (conditional · thenBranch elseBranch position) fun condition _ =>
    (thenBranch.check Γ).andThen (conditional condition · elseBranch position) fun thenBranch _ =>
    (elseBranch.check Γ).map (conditional condition thenBranch · position) id
  | loop condition body position =>
    (checkCondition Γ condition .whileConditionMustBeBoolean position).andThen
      (loop · body position) fun condition _ =>
    (body.check Γ).map (loop condition · position) id

/-- Checks statements in order, up to the first that breaks a rule. -/
def checkAll (Γ : Context) : List Stmt → Outcome (List Stmt) Unit
  | [] => ⟨[], .ok ()⟩
  | s :: ss => (s.check Γ).andThen (· :: ss) fun s _ => (checkAll Γ ss).map (s :: ·) id

end

end Stmt

end Spl
