import Spl.Expr
import Spl.Scope.Context

/-!
The types of expressions and variables. Parts come before the whole and left before right, and a
node gets its type once all its parts have theirs.
-/

namespace Spl

/-- The type of the result of an operator on two integers. -/
def BinaryOp.resultTy (op : BinaryOp) : Ty :=
  if op.isComparison then .bool else .int

mutual

def Expr.check (Γ : Context) : Expr → Outcome Expr Ty
  | .int value position slot => slot.write .int (.int value position)
  | .var v position slot =>
    (v.check Γ).andThen (.var · position slot) fun v ty => slot.write ty (.var v position)
  | .unary op operand position slot =>
    (operand.check Γ).andThen (.unary op · position slot) fun operand ty =>
    if ty.isInt then slot.write .int (.unary op operand position)
    else
      ⟨.unary op operand position slot,
        .error (Cause.halt (.noSuchOperator op.text ty.text none) position)⟩
  | .binary op left right position slot =>
    (left.check Γ).andThen (.binary op · right position slot) fun left leftTy =>
    (right.check Γ).andThen (.binary op left · position slot) fun right rightTy =>
    if leftTy.same rightTy && leftTy.isInt then
      slot.write op.resultTy (.binary op left right position)
    else
      ⟨.binary op left right position slot,
        .error (Cause.halt (.noSuchOperator op.text leftTy.text (some rightTy.text)) position)⟩

def Variable.check (Γ : Context) : Variable → Outcome Variable Ty
  | .named name position slot =>
    match Γ.variableNamed name position with
    | .ok ty => slot.write ty (.named name position)
    | .error halt => ⟨.named name position slot, .error halt⟩
  | .element array index position slot =>
    (array.check Γ).andThen (.element · index position slot) fun array arrayTy =>
    (index.check Γ).andThen (.element array · position slot) fun index indexTy =>
    match arrayTy.element? with
    | none =>
      ⟨.element array index position slot, .error (Cause.halt .indexingNonArray position)⟩
    | some elementTy =>
      if indexTy.isInt then slot.write elementTy (.element array index position)
      else
        ⟨.element array index position slot,
          .error (Cause.halt .indexingWithNonInteger position)⟩

end

end Spl
