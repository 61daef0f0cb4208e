import Spl.TypeExpr

/-!
Outlines of types as they are written.
-/

namespace Spl.TypeExpr

open Text

def outline : TypeExpr → Outline
  | named name position ty =>
    .tuple "Named" [.record "NamedTypeExpression"
      [.field "name" (.atom (quote name)), .field "position" position.outline,
        .field "data_type" ty.outline]]
  | array size element position ty =>
    .tuple "Array" [.record "ArrayTypeExpression"
      [.field "base_type" element.outline, .field "array_size" (.atom (toString size.toNat)),
        .field "position" position.outline, .field "data_type" ty.outline]]

end Spl.TypeExpr
