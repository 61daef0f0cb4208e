import Spl.Scope.Table

/-!
The meaning of names where they are used. A name means its nearest entry, which has to be of the
kind that the use asks for.
-/

namespace Spl

/-- A scope of a table, as the place where names are used. -/
structure Context where
  table : SymbolTable
  scope : ScopeId

namespace Context

def lookup (Γ : Context) (name : String) : Except Halt (Option Entry) :=
  (Γ.table.lookup Γ.scope name).mapError .fault

def typeNamed (Γ : Context) (name : String) (position : Position) : Except Halt Ty := do
  match ← Γ.lookup name with
  | some (.type ty) => return ty
  | some _ => throw (Cause.halt (.notAType name) position)
  | none => throw (Cause.halt (.undefinedType name) position)

def variableNamed (Γ : Context) (name : String) (position : Position) : Except Halt Ty := do
  match ← Γ.lookup name with
  | some (.var ty _) => return ty
  | some _ => throw (Cause.halt (.notAVariable name) position)
  | none => throw (Cause.halt (.undefinedVariable name) position)

def procedureNamed (Γ : Context) (name : String) (position : Position) :
    Except Halt Signature := do
  match ← Γ.lookup name with
  | some (.procedure s) => return s
  | some _ => throw (Cause.halt (.callOfNonProcedure name) position)
  | none => throw (Cause.halt (.undefinedProcedure name) position)

end Context

end Spl
