import Spl.Expr

/-!
Outlines of expressions and variables.
-/

namespace Spl

open Text

mutual

def Expr.outline : Expr → Outline
  | .int value position ty =>
    .tuple "IntLiteral" [.record "IntLiteral"
      [.field "value" (.atom (toString value.toInt)), .field "position" position.outline,
        .field "data_type" ty.outline]]
  | .var v position ty =>
    .tuple "Variable" [.record "VariableExpression"
      [.field "variable" v.outline, .field "position" position.outline,
        .field "data_type" ty.outline]]
  | .unary op operand position ty =>
    .tuple "Unary" [.record "UnaryExpression"
      [.field "operator" (.atom op.name), .field "operand" operand.outline,
        .field "position" position.outline, .field "data_type" ty.outline]]
  | .binary op left right position ty =>
    .tuple "Binary" [.record "BinaryExpression"
      [.field "operator" (.atom op.name), .field "left_operand" left.outline,
        .field "right_operand" right.outline, .field "position" position.outline,
        .field "data_type" ty.outline]]

def Variable.outline : Variable → Outline
  | .named name position ty =>
    .tuple "Named" [.record "NamedVariable"
      [.field "name" (.atom (quote name)), .field "position" position.outline,
        .field "data_type" ty.outline]]
  | .element array index position ty =>
    .tuple "ArrayAccess" [.record "ArrayAccess"
      [.field "array" array.outline, .field "index" index.outline,
        .field "position" position.outline, .field "data_type" ty.outline]]

end

end Spl
