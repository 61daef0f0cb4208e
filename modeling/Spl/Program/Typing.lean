import Spl.Program
import Spl.Stmt.Typing

/-!
The bodies of procedures, checked in their local scopes. A program is checked up to its first
error, or procedure by procedure with one error at most from each.
-/

namespace Spl

open Outcome

/-- Checks the body of a procedure in the scope that the table has for its name. -/
def Procedure.check (table : SymbolTable) (p : Procedure) : Outcome Procedure Unit :=
  match table.procedure? p.name with
  | .error fault => ⟨p, .error (.fault fault)⟩
  | .ok none => ⟨p, .error (Cause.halt (.undefinedProcedure p.name) p.position)⟩
  | .ok (some signature) =>
    (Stmt.checkAll ⟨table, signature.scope⟩ p.body).map (fun body => { p with body }) id

/-- Types have no body to check. -/
def Declaration.check (table : SymbolTable) : Declaration → Outcome Declaration Unit
  | type d => ⟨type d, .ok ()⟩
  | procedure d => (d.check table).map procedure id

namespace Program

/-- Checks all bodies in the order of their declarations, up to the first error. -/
def check (table : SymbolTable) (p : Program) : Outcome Program Unit :=
  (visitAll (Declaration.check table) p.declarations).map (⟨·, p.span⟩) fun _ => ()

/-- The first error of each body that has one. -/
def diagnose (table : SymbolTable) (p : Program) : Outcome Program (List Diagnostic) :=
  (visitAll (fun d => (d.check table).diagnosed) p.declarations).map (⟨·, p.span⟩)
    fun found => found.filterMap id

end Program

end Spl
