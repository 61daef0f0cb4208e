import Spl.Ty

/-!
What a declared name stands for.
-/

namespace Spl

/-- A scope of a symbol table, by its index there. -/
structure ScopeId where
  index : Nat
  deriving DecidableEq, Repr

namespace ScopeId

def global : ScopeId := ⟨0⟩

def text (id : ScopeId) : String := "ScopeId(" ++ toString id.index ++ ")"

end ScopeId

/-- What a procedure expects of one of its arguments. -/
structure Formal where
  ty : Ty
  byReference : Bool
  deriving DecidableEq, Repr

/-- What a procedure declares: its local scope, and its parameters in order. -/
structure Signature where
  scope : ScopeId
  formals : List Formal
  deriving DecidableEq, Repr

inductive Entry
  | type (ty : Ty)
  | var (ty : Ty) (byReference : Bool)
  | procedure (signature : Signature)
  deriving DecidableEq, Repr

def Formal.text (f : Formal) : String :=
  if f.byReference then "ref " ++ f.ty.text else f.ty.text

namespace Entry

def kind : Entry → String
  | type _ => "type"
  | var _ _ => "var"
  | procedure _ => "proc"

/-- The entry as listings of scopes show it. -/
def text (e : Entry) : String :=
  e.kind ++ " : " ++ match e with
    | type ty => ty.text
    | var ty byReference => Formal.text ⟨ty, byReference⟩
    | procedure s => "(" ++ ", ".intercalate (s.formals.map Formal.text) ++ ")"

end Entry

end Spl
