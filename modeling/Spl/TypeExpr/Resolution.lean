import Spl.Scope.Context
import Spl.TypeExpr

/-!
Resolution of types as they are written. Each array type makes a new type, so resolution takes the
first identity that is not in use and hands on the next one.
-/

namespace Spl.TypeExpr

/-- Finds the type that a type expression stands for, and writes it into the slots on the way. The
type of the elements comes first. -/
def resolve (Γ : Context) : TypeExpr → Nat → Outcome (TypeExpr × Nat) Ty
  | named name position slot, fresh =>
    match Γ.typeNamed name position with
    | .ok ty => slot.write ty fun slot => (named name position slot, fresh)
    | .error halt => ⟨(named name position slot, fresh), .error halt⟩
  | array size element position slot, fresh =>
    (element.resolve Γ fresh).andThen
      (fun (element, fresh) => (array size element position slot, fresh))
      fun (element, fresh) elementTy =>
        slot.write (.array fresh size elementTy) fun slot =>
          (array size element position slot, fresh + 1)

end Spl.TypeExpr
