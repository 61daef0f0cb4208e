import Spl.Proofs.Program.Entering
import Spl.Proofs.Typing.Spots

/-!
Where arrays come from. The origin of a type expression is the array type
expression that it stands for, be it itself or behind the names of types. That
of a variable is the origin of its declared type, and behind an index it is the
origin of the type of the elements. Origins are places in the program, so they
have nothing to do with the types that were found.
-/

namespace Spl

/-- A node of a type expression: the declaration that the type expression is
in, its number among the type expressions of the declaration, and the number of
array types around the node. -/
structure TypeSite where
  declaration : Nat
  part : Nat
  depth : Nat
  deriving DecidableEq, Repr

/-- The site of the element type of an array type expression. -/
def TypeSite.element (site : TypeSite) : TypeSite :=
  { site with depth := site.depth + 1 }

namespace Program

/-- The type expression at a site. -/
def typeAt (p : Program) (site : TypeSite) : Option TypeExpr :=
  p.declarations[site.declaration]?.bind fun d =>
    d.typeExprs[site.part]?.bind fun e => e.nodes[site.depth]?

/-- The array type expression that a type expression stands for. A name stands
for what the declared type of that name stands for. -/
inductive Origin (p : Program) : TypeSite → TypeSite → Prop
  | array {site : TypeSite} {size : UInt32} {element : TypeExpr} {position : Position}
      {slot : Slot} (h : p.typeAt site = some (.array size element position slot)) :
      Origin p site site
  | named {site o : TypeSite} {position : Position} {slot : Slot} {i : Nat}
      {t : TypeDeclaration} (h : p.typeAt site = some (.named t.name position slot))
      (ht : p.declarations[i]? = some (.type t)) (ho : Origin p ⟨i, 0, 0⟩ o) :
      Origin p site o

/-- The array type expression that the type of a variable comes from, in the
body of the procedure `q`, which is declaration `i`. The parameters and variables
of a procedure have the numbers of their type expressions. -/
inductive VariableOrigin (p : Program) (i : Nat) (q : Procedure) : Variable → TypeSite → Prop
  | named {name : String} {position : Position} {slot : Slot} {j : Nat} {o : TypeSite}
      (h : q.localNames[j]? = some name) (ho : p.Origin ⟨i, j, 0⟩ o) :
      VariableOrigin p i q (.named name position slot) o
  | element {array : Variable} {index : Expr} {position : Position} {slot : Slot}
      {a o : TypeSite} (ha : VariableOrigin p i q array a) (ho : p.Origin a.element o) :
      VariableOrigin p i q (.element array index position slot) o

/-- The nodes that carry types: those of type expressions, and those of the
bodies of procedures. -/
inductive Node
  | type (site : TypeSite)
  | body (declaration : Nat) (spot : Spot)

/-- The program has the node, which carries the type. -/
inductive Carries (p : Program) : Node → Ty → Prop
  | type {site : TypeSite} {e : TypeExpr} {ty : Ty} (h : p.typeAt site = some e)
      (hty : e.ty = some ty) : Carries p (.type site) ty
  | body {i : Nat} {q : Procedure} {spot : Spot} {ty : Ty}
      (h : p.declarations[i]? = some (.procedure q)) (hspot : spot ∈ q.spots)
      (hty : spot.ty = some ty) : Carries p (.body i spot) ty

/-- The array type expression that a node comes from. An expression comes from
where the variable comes from that it reads. -/
inductive NodeOrigin (p : Program) : Node → TypeSite → Prop
  | type {site o : TypeSite} (h : p.Origin site o) : NodeOrigin p (.type site) o
  | var {i : Nat} {q : Procedure} {place : VariablePlace} {v : Variable} {o : TypeSite}
      (hq : p.declarations[i]? = some (.procedure q)) (h : p.VariableOrigin i q v o) :
      NodeOrigin p (.body i (.var place v)) o
  | expr {i : Nat} {q : Procedure} {place : ExprPlace} {v : Variable}
      {position : Position} {slot : Slot} {o : TypeSite}
      (hq : p.declarations[i]? = some (.procedure q)) (h : p.VariableOrigin i q v o) :
      NodeOrigin p (.body i (.expr place (.var v position slot))) o

end Program

end Spl
