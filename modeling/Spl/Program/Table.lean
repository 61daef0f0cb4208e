import Spl.Program
import Spl.Scope.Initial
import Spl.Scope.Listing
import Spl.Text.Sink
import Spl.TypeExpr.Resolution

/-!
The symbol table of a program. Declarations are entered in their order, each procedure with a local
scope for its parameters and variables. Types in declarations are resolved on the way. A listing of
each procedure's scopes can be written out once the procedure is entered.
-/

namespace Spl

open Outcome Text

/-- A table that is being filled, the first array identity that is not in use, and the place for
listings. -/
structure Draft where
  table : SymbolTable
  fresh : Nat
  output : Sink

namespace Draft

def declare (d : Draft) (scope : ScopeId) (name : String) (entry : Entry) (complaint : Diagnostic) :
    Outcome Draft Unit :=
  (d.table.enter scope name entry complaint).map (fun table => { d with table }) id

theorem declare_of_ok {d : Draft} {scope : ScopeId} {name : String} {entry : Entry}
    {complaint : Diagnostic} {table : SymbolTable}
    (h : d.table.declare scope name entry complaint = .ok table) :
    d.declare scope name entry complaint = ⟨{ d with table }, .ok ()⟩ := by
  rw [declare, SymbolTable.enter_of_declare h]
  rfl

theorem declare_of_error {d : Draft} {scope : ScopeId} {name : String} {entry : Entry}
    {complaint : Diagnostic} {halt : Halt}
    (h : d.table.declare scope name entry complaint = .error halt) :
    d.declare scope name entry complaint = ⟨d, .error halt⟩ := by
  rw [declare, SymbolTable.enter_of_declare_error h]
  rfl

/-- Writes the listing of a procedure's scopes. A failure is blamed on the procedure. -/
def list (d : Draft) (procedure : Procedure) (scope : ScopeId) : Outcome Draft Unit :=
  match d.table.listing scope with
  | .error fault => ⟨d, .error (.fault fault)⟩
  | .ok listing =>
    let text := "Symbol table at end of procedure '" ++ procedure.name ++ "':\n" ++ listing ++ "\n"
    let (output, complete) := d.output.write text
    ⟨{ d with output },
      if complete && !output.flushFails then .ok ()
      else .error (Cause.halt (.tableDumpFailed output.reason) procedure.position)⟩

end Draft

/-- Resolves a type in the table of a draft. -/
def TypeExpr.resolveIn (scope : ScopeId) (e : TypeExpr) (d : Draft) :
    Outcome (TypeExpr × Draft) Ty :=
  (e.resolve ⟨d.table, scope⟩ d.fresh).map (fun (e, fresh) => (e, { d with fresh })) id

def TypeDeclaration.declare (t : TypeDeclaration) (d : Draft) :
    Outcome (TypeDeclaration × Draft) Unit :=
  (t.type.resolveIn .global d).andThen (fun (type, d) => ({ t with type }, d)) fun (type, d) ty =>
  (d.declare .global t.name (.type ty) ⟨.redeclarationAsType t.name, t.position⟩).map
    (fun d => ({ t with type }, d)) id

/-- Enters a parameter. Its type is a global one, and an array has to be passed by reference. -/
def Parameter.declare (scope : ScopeId) (p : Parameter) (d : Draft) :
    Outcome (Parameter × Draft) Formal :=
  (p.type.resolveIn .global d).andThen (fun (type, d) => ({ p with type }, d)) fun (type, d) ty =>
  if ty.isArray && !p.byReference then
    ⟨({ p with type }, d), .error (Cause.halt (.mustBeAReferenceParameter p.name) p.position)⟩
  else
    (d.declare scope p.name (.var ty p.byReference)
        ⟨.redeclarationAsParameter p.name, p.position⟩).map
      (fun d => ({ p with type }, d)) fun _ => ⟨ty, p.byReference⟩

/-- Enters a variable. Its type is looked up where the variable stands, among the parameters and
the variables before it. -/
def LocalVariable.declare (scope : ScopeId) (v : LocalVariable) (d : Draft) :
    Outcome (LocalVariable × Draft) Unit :=
  (v.type.resolveIn scope d).andThen (fun (type, d) => ({ v with type }, d)) fun (type, d) ty =>
  (d.declare scope v.name (.var ty false) ⟨.redeclarationAsVariable v.name, v.position⟩).map
    (fun d => ({ v with type }, d)) id

/-- Enters a procedure after what it declares, so its own name is not there for its parameters. -/
def Procedure.declare (p : Procedure) (d : Draft) : Outcome (Procedure × Draft) ScopeId :=
  let (table, scope) := d.table.nest .global
  (threadAll (Parameter.declare scope) p.parameters { d with table }).andThen
    (fun (parameters, d) => ({ p with parameters }, d)) fun (parameters, d) formals =>
  (threadAll (LocalVariable.declare scope) p.locals d).andThen
    (fun (locals, d) => ({ p with parameters, locals }, d)) fun (locals, d) _ =>
  (d.declare .global p.name (.procedure ⟨scope, formals⟩)
      ⟨.redeclarationAsProcedure p.name, p.position⟩).map
    (fun d => ({ p with parameters, locals }, d)) fun _ => scope

/-- Enters a declaration, and writes the listing of a procedure if the options ask for it. -/
def Declaration.declare (options : Options) :
    Declaration → Draft → Outcome (Declaration × Draft) Unit
  | type t, d => (t.declare d).map (fun (t, d) => (type t, d)) id
  | procedure p, d =>
    (p.declare d).andThen (fun (p, d) => (procedure p, d)) fun (p, d) scope =>
    if options.listsTables then (d.list p scope).map (fun d => (procedure p, d)) id
    else ⟨(procedure p, d), .ok ()⟩

/-- A program starts with its procedure `main`, which takes nothing. -/
def SymbolTable.entryPoint (t : SymbolTable) : Except Halt Unit := do
  match ← (t.get .global "main").mapError .fault with
  | none => throw (Cause.halt .mainIsMissing .null)
  | some (.procedure s) =>
    if s.formals.isEmpty then return () else throw (Cause.halt .mainMustNotHaveParameters .null)
  | some _ => throw (Cause.halt .mainIsNotAProcedure .null)

/-- Builds the table of a program. Array types get identities from `fresh` on. -/
def Program.buildTable (options : Options) (p : Program) (fresh : Nat) (output : Sink) :
    Outcome (Program × Draft) SymbolTable :=
  match SymbolTable.initial options.library with
  | .error halt => ⟨(p, ⟨.empty, fresh, output⟩), .error halt⟩
  | .ok table =>
    (threadAll (Declaration.declare options) p.declarations ⟨table, fresh, output⟩).andThen
      (fun (declarations, d) => (⟨declarations, p.span⟩, d)) fun (declarations, d) _ =>
      ⟨(⟨declarations, p.span⟩, d), d.table.entryPoint.map fun _ => d.table⟩

end Spl
