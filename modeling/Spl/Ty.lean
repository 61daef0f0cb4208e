import Spl.Text.Outline

/-!
Types of variables and expressions. Array types are nominal: each array type expression makes a
type of its own, told apart by its identity, and two array types of equal size and element type
need not be the same.
-/

namespace Spl

inductive Ty
  | int
  | bool
  | array (identity : Nat) (size : UInt32) (element : Ty)
  deriving DecidableEq, Repr

namespace Ty

/-- Whether two types are the same type: array types by their identities alone. -/
def same : Ty → Ty → Bool
  | int, int => true
  | bool, bool => true
  | array i _ _, array j _ _ => i == j
  | _, _ => false

@[simp] theorem same_self (t : Ty) : t.same t = true := by
  cases t <;> simp [same]

def isInt : Ty → Bool
  | int => true
  | _ => false

def isBool : Ty → Bool
  | bool => true
  | _ => false

/-- The type of the elements, if this is an array type. -/
def element? : Ty → Option Ty
  | array _ _ element => some element
  | _ => none

def isArray (t : Ty) : Bool := t.element?.isSome

/-- The type as messages and listings name it. -/
def text : Ty → String
  | int => "int"
  | bool => "boolean"
  | array _ size element => "array [" ++ toString size.toNat ++ "] of " ++ element.text

open Text in
def outline : Ty → Outline
  | int => .tuple "Primitive" [.atom "Int"]
  | bool => .tuple "Primitive" [.atom "Bool"]
  | array _ size element =>
    .tuple "Array" [.record "ArrayType"
      [.field "base_type" element.outline, .field "array_size" (.atom (toString size.toNat))]]

end Ty

end Spl
