import Spl.Expr.Outline
import Spl.Stmt

/-!
Outlines of statements.
-/

namespace Spl.Stmt

open Text

mutual

def outline : Stmt → Outline
  | empty position =>
    .tuple "Empty" [.record "EmptyStatement" [.field "position" position.outline]]
  | compound body position =>
    .tuple "Compound" [.record "CompoundStatement"
      [.field "statements" (.list (outlines body)), .field "position" position.outline]]
  | assign target value position =>
    .tuple "Assign" [.record "AssignStatement"
      [.field "target" target.outline, .field "value" value.outline,
        .field "position" position.outline]]
  | call procedure arguments position =>
    .tuple "Call" [.record "CallStatement"
      [.field "procedure_name" (.atom (quote procedure)),
        .field "arguments" (.list (arguments.map Expr.outline)),
        .field "position" position.outline]]
  | conditional condition thenBranch elseBranch position =>
    .tuple "If" [.record "IfStatement"
      [.field "condition" condition.outline, .field "then_part" thenBranch.outline,
        .field "else_part" elseBranch.outline, .field "position" position.outline]]
  | loop condition body position =>
    .tuple "While" [.record "WhileStatement"
      [.field "condition" condition.outline, .field "body" body.outline,
        .field "position" position.outline]]

def outlines : List Stmt → List Outline
  | [] => []
  | s :: ss => s.outline :: outlines ss

end

end Spl.Stmt
