import Spl.Stmt
import Spl.TypeExpr

/-!
Declarations: types and procedures for the whole program, parameters and variables for one
procedure.
-/

namespace Spl

/-- `type name = type;` -/
structure TypeDeclaration where
  name : String
  type : TypeExpr
  position : Position

/-- `[ref] name: type` -/
structure Parameter where
  name : String
  type : TypeExpr
  byReference : Bool
  position : Position

/-- `var name: type;` -/
structure LocalVariable where
  name : String
  type : TypeExpr
  position : Position

/-- `proc name(parameters) { locals body }` -/
structure Procedure where
  name : String
  parameters : List Parameter
  locals : List LocalVariable
  body : List Stmt
  position : Position

inductive Declaration
  | type (declaration : TypeDeclaration)
  | procedure (declaration : Procedure)

namespace Declaration

def name : Declaration → String
  | type d => d.name
  | procedure d => d.name

def position : Declaration → Position
  | type d => d.position
  | procedure d => d.position

def procedure? : Declaration → Option Procedure
  | type _ => none
  | procedure d => some d

end Declaration

end Spl
