import Spl.Program
import Spl.Stmt.Outline
import Spl.TypeExpr.Outline

/-!
Outlines of declarations and of whole programs.
-/

namespace Spl

open Text

def Parameter.outline (p : Parameter) : Outline :=
  .record "ParameterDeclaration"
    [.field "name" (.atom (quote p.name)), .field "type_expression" p.type.outline,
      .field "is_reference" (.atom (toString p.byReference)), .field "position" p.position.outline]

def LocalVariable.outline (v : LocalVariable) : Outline :=
  .record "VariableDeclaration"
    [.field "name" (.atom (quote v.name)), .field "type_expression" v.type.outline,
      .field "position" v.position.outline]

def Declaration.outline : Declaration → Outline
  | .type d =>
    .tuple "Type" [.record "TypeDeclaration"
      [.field "name" (.atom (quote d.name)), .field "type_expression" d.type.outline,
        .field "position" d.position.outline]]
  | .procedure d =>
    .tuple "Procedure" [.record "ProcedureDeclaration"
      [.field "name" (.atom (quote d.name)),
        .field "parameters" (.list (d.parameters.map Parameter.outline)),
        .field "variables" (.list (d.locals.map LocalVariable.outline)),
        .field "body" (.list (d.body.map Stmt.outline)), .field "position" d.position.outline]]

def Program.outline (p : Program) : Outline :=
  .record "Program"
    [.field "declarations" (.list (p.declarations.map Declaration.outline)),
      .field "span" p.span.outline]

end Spl
