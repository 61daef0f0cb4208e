import Spl.Proofs.Fresh
import Spl.Proofs.Scope.Contents
import Spl.Proofs.Syntax.Relabelling

/-!
Programs in translation. Array types are told apart by numbers, and so are the
scopes of a table; which numbers these are is as arbitrary as names and places
are. A translation gives other labels to nodes and other numbers to array types
and scopes. What it leaves as it is are the shapes of programs and types, the
sizes of arrays, values and operators.
-/

namespace Spl

structure Translation extends Relabelling where
  identity : Nat → Nat
  scope : ScopeId → ScopeId

/-- Array types keep their numbers. -/
def Translation.KeepsTypes (m : Translation) : Prop :=
  ∀ i, m.identity i = i

/-- The translation that changes labels only. -/
def Relabelling.translation (ρ : Relabelling) : Translation :=
  ⟨ρ, id, id⟩

/-- The translation that changes numbers only. -/
def Translation.ofNumbers (identity : Nat → Nat) (scope : ScopeId → ScopeId) : Translation :=
  ⟨.identical, identity, scope⟩

theorem Relabelling.keepsTypes_translation (ρ : Relabelling) : ρ.translation.KeepsTypes :=
  fun _ => rfl

variable (m : Translation)

/-! ### Types and entries -/

namespace Ty

def translate : Ty → Ty
  | int => int
  | bool => bool
  | array identity size element => array (m.identity identity) size element.translate

@[simp] theorem text_translate (t : Ty) : (t.translate m).text = t.text := by
  induction t with
  | int => rfl
  | bool => rfl
  | array identity size element ih => rw [translate, text, text, ih]

@[simp] theorem isInt_translate (t : Ty) : (t.translate m).isInt = t.isInt := by
  cases t <;> rfl

@[simp] theorem isBool_translate (t : Ty) : (t.translate m).isBool = t.isBool := by
  cases t <;> rfl

@[simp] theorem element?_translate (t : Ty) :
    (t.translate m).element? = t.element?.map (translate m) := by
  cases t <;> rfl

@[simp] theorem isArray_translate (t : Ty) : (t.translate m).isArray = t.isArray := by
  rw [isArray, isArray, element?_translate, Option.isSome_map]

variable {m}

/-- Different array types stay different. -/
theorem same_translate (hm : Function.Injective m.identity) (t u : Ty) :
    (t.translate m).same (u.translate m) = t.same u := by
  cases t with
  | array i _ _ =>
      cases u with
      | array j _ _ =>
          rw [translate, translate, same, same, Bool.eq_iff_iff, beq_iff_eq, beq_iff_eq, hm.eq_iff]
      | int | bool => rfl
  | int | bool => cases u <;> rfl

theorem translate_eq_self (hm : m.KeepsTypes) (t : Ty) : t.translate m = t := by
  induction t with
  | int => rfl
  | bool => rfl
  | array identity size element ih => rw [translate, hm, ih]

end Ty

def Slot.translate (slot : Slot) : Slot :=
  slot.map (Ty.translate m)

variable {m} in
theorem Slot.translate_eq_self (hm : m.KeepsTypes) (slot : Slot) : slot.translate m = slot := by
  rw [translate, funext (Ty.translate_eq_self hm), Option.map_id']

def Formal.translate (f : Formal) : Formal :=
  ⟨f.ty.translate m, f.byReference⟩

def Signature.translate (s : Signature) : Signature :=
  ⟨m.scope s.scope, s.formals.map (Formal.translate m)⟩

def Entry.translate : Entry → Entry
  | type ty => type (ty.translate m)
  | var ty byReference => var (ty.translate m) byReference
  | procedure signature => procedure (signature.translate m)

variable {m} in
theorem Entry.translate_eq_self (hm : m.KeepsTypes) (hscope : ∀ id, m.scope id = id)
    (e : Entry) : e.translate m = e := by
  cases e with
  | type ty => rw [translate, ty.translate_eq_self hm]
  | var ty byReference => rw [translate, ty.translate_eq_self hm]
  | procedure signature =>
      have hformals : signature.formals.map (Formal.translate m) = signature.formals :=
        List.map_id'' (fun f => by rw [Formal.translate, f.ty.translate_eq_self hm]) _
      rw [translate, Signature.translate, hscope, hformals]

def Translation.binding (b : Binding) : Binding :=
  (m.name b.1, b.2.translate m)

/-! ### What stops a pass -/

def Fault.translate : Fault → Fault
  | annotatedTwice was now => annotatedTwice (was.translate m) (now.translate m)
  | fault => fault

def Halt.translate : Halt → Halt
  | diagnostic d => diagnostic (d.relabel m.toRelabelling)
  | fault f => fault (f.translate m)

/-! ### Programs -/

def TypeExpr.translate : TypeExpr → TypeExpr
  | .named name position slot => .named (m.name name) (m.place position) (slot.translate m)
  | .array size element position slot =>
    .array size element.translate (m.place position) (slot.translate m)

mutual

def Expr.translate (m : Translation) : Expr → Expr
  | .int value position slot => .int value (m.place position) (slot.translate m)
  | .var v position slot => .var (v.translate m) (m.place position) (slot.translate m)
  | .unary op operand position slot =>
    .unary op (operand.translate m) (m.place position) (slot.translate m)
  | .binary op left right position slot =>
    .binary op (left.translate m) (right.translate m) (m.place position)
      (slot.translate m)

def Variable.translate (m : Translation) : Variable → Variable
  | .named name position slot => .named (m.name name) (m.place position) (slot.translate m)
  | .element array index position slot =>
    .element (array.translate m) (index.translate m) (m.place position) (slot.translate m)

end

@[simp] theorem Expr.isVariable_translate (e : Expr) :
    (e.translate m).isVariable = e.isVariable := by
  cases e <;> rfl

namespace Stmt

mutual

def translate (m : Translation) : Stmt → Stmt
  | empty position => empty (m.place position)
  | compound body position => compound (translateAll m body) (m.place position)
  | assign target value position =>
    assign (target.translate m) (value.translate m) (m.place position)
  | call procedure arguments position =>
    call (m.name procedure) (arguments.map (Expr.translate m)) (m.place position)
  | conditional condition thenBranch elseBranch position =>
    conditional (condition.translate m) (thenBranch.translate m) (elseBranch.translate m)
      (m.place position)
  | loop condition body position =>
    loop (condition.translate m) (body.translate m) (m.place position)

def translateAll (m : Translation) : List Stmt → List Stmt
  | [] => []
  | s :: ss => s.translate m :: translateAll m ss

end

end Stmt

def TypeDeclaration.translate (t : TypeDeclaration) : TypeDeclaration :=
  ⟨m.name t.name, t.type.translate m, m.place t.position⟩

def Parameter.translate (p : Parameter) : Parameter :=
  ⟨m.name p.name, p.type.translate m, p.byReference, m.place p.position⟩

def LocalVariable.translate (v : LocalVariable) : LocalVariable :=
  ⟨m.name v.name, v.type.translate m, m.place v.position⟩

def Procedure.translate (p : Procedure) : Procedure :=
  ⟨m.name p.name, p.parameters.map (Parameter.translate m),
    p.locals.map (LocalVariable.translate m), Stmt.translateAll m p.body, m.place p.position⟩

def Declaration.translate : Declaration → Declaration
  | type t => type (t.translate m)
  | procedure p => procedure (p.translate m)

def Program.translate (p : Program) : Program :=
  ⟨p.declarations.map (Declaration.translate m), m.span p.span⟩

/-! ### Translations of labels alone -/

section Labels

variable {m}

theorem Fault.translate_eq_self (hm : m.KeepsTypes) (fault : Fault) :
    fault.translate m = fault := by
  cases fault with
  | annotatedTwice was now =>
      rw [translate, was.translate_eq_self hm, now.translate_eq_self hm]
  | noToken | badSlice | countTooLarge | unknownScope | endlessScope | noProgress => rfl

theorem Halt.translate_eq_relabel (hm : m.KeepsTypes) (halt : Halt) :
    halt.translate m = halt.relabel m.toRelabelling := by
  cases halt with
  | diagnostic d => rfl
  | fault fault => rw [translate, relabel, fault.translate_eq_self hm]

theorem TypeExpr.translate_eq_relabel (hm : m.KeepsTypes) (e : TypeExpr) :
    e.translate m = e.relabel m.toRelabelling := by
  induction e with
  | named name position slot => rw [translate, relabel, Slot.translate_eq_self hm]
  | array size element position slot ih =>
      rw [translate, relabel, Slot.translate_eq_self hm, ih]

mutual

theorem Expr.translate_eq_relabel (hm : m.KeepsTypes) :
    (e : Expr) → e.translate m = e.relabel m.toRelabelling
  | .int _ _ _ => by rw [Expr.translate, Expr.relabel, Slot.translate_eq_self hm]
  | .var v _ _ => by
      rw [Expr.translate, Expr.relabel, Slot.translate_eq_self hm,
        Variable.translate_eq_relabel hm v]
  | .unary _ operand _ _ => by
      rw [Expr.translate, Expr.relabel, Slot.translate_eq_self hm,
        Expr.translate_eq_relabel hm operand]
  | .binary _ left right _ _ => by
      rw [Expr.translate, Expr.relabel, Slot.translate_eq_self hm,
        Expr.translate_eq_relabel hm left, Expr.translate_eq_relabel hm right]

theorem Variable.translate_eq_relabel (hm : m.KeepsTypes) :
    (v : Variable) → v.translate m = v.relabel m.toRelabelling
  | .named _ _ _ => by rw [Variable.translate, Variable.relabel, Slot.translate_eq_self hm]
  | .element array index _ _ => by
      rw [Variable.translate, Variable.relabel, Slot.translate_eq_self hm,
        Variable.translate_eq_relabel hm array, Expr.translate_eq_relabel hm index]

end

namespace Stmt

mutual

theorem translate_eq_relabel (hm : m.KeepsTypes) :
    (s : Stmt) → s.translate m = s.relabel m.toRelabelling
  | .empty _ => rfl
  | .compound body _ => by rw [translate, relabel, translateAll_eq_relabelAll hm body]
  | .assign target value _ => by
      rw [translate, relabel, target.translate_eq_relabel hm, value.translate_eq_relabel hm]
  | .call _ arguments _ => by
      rw [translate, relabel, funext (Expr.translate_eq_relabel hm)]
  | .conditional condition thenBranch elseBranch _ => by
      rw [translate, relabel, condition.translate_eq_relabel hm, translate_eq_relabel hm thenBranch,
        translate_eq_relabel hm elseBranch]
  | .loop condition body _ => by
      rw [translate, relabel, condition.translate_eq_relabel hm, translate_eq_relabel hm body]

theorem translateAll_eq_relabelAll (hm : m.KeepsTypes) :
    (ss : List Stmt) → translateAll m ss = relabelAll m.toRelabelling ss
  | [] => rfl
  | s :: ss => by
      rw [translateAll, relabelAll, translate_eq_relabel hm s, translateAll_eq_relabelAll hm ss]

end

end Stmt

theorem Declaration.translate_eq_relabel (hm : m.KeepsTypes) (d : Declaration) :
    d.translate m = d.relabel m.toRelabelling := by
  have htype := funext (TypeExpr.translate_eq_relabel hm)
  cases d with
  | type t =>
      simp only [translate, relabel, TypeDeclaration.translate, TypeDeclaration.relabel, htype]
  | procedure p =>
      have hparameter : Parameter.translate m = Parameter.relabel m.toRelabelling :=
        funext fun p => by simp only [Parameter.translate, Parameter.relabel, htype]
      have hlocal : LocalVariable.translate m = LocalVariable.relabel m.toRelabelling :=
        funext fun v => by simp only [LocalVariable.translate, LocalVariable.relabel, htype]
      simp only [translate, relabel, Procedure.translate, Procedure.relabel, hparameter, hlocal,
        Stmt.translateAll_eq_relabelAll hm]

theorem Program.translate_eq_relabel (hm : m.KeepsTypes) (p : Program) :
    p.translate m = p.relabel m.toRelabelling := by
  rw [translate, relabel, funext (Declaration.translate_eq_relabel hm)]

end Labels

/-! ### Nodes without types -/

section Fresh

mutual

theorem Expr.translate_of_fresh :
    (e : Expr) → e.Fresh → e.translate m = e.relabel m.toRelabelling
  | .int _ _ _, rfl => rfl
  | .var v _ _, ⟨hv, rfl⟩ => by
      rw [Expr.translate, Expr.relabel, Variable.translate_of_fresh v hv]
      rfl
  | .unary _ operand _ _, ⟨hoperand, rfl⟩ => by
      rw [Expr.translate, Expr.relabel, Expr.translate_of_fresh operand hoperand]
      rfl
  | .binary _ left right _ _, ⟨hleft, hright, rfl⟩ => by
      rw [Expr.translate, Expr.relabel, Expr.translate_of_fresh left hleft,
        Expr.translate_of_fresh right hright]
      rfl

theorem Variable.translate_of_fresh :
    (v : Variable) → v.Fresh → v.translate m = v.relabel m.toRelabelling
  | .named _ _ _, rfl => rfl
  | .element array index _ _, ⟨harray, hindex, rfl⟩ => by
      rw [Variable.translate, Variable.relabel, Variable.translate_of_fresh array harray,
        Expr.translate_of_fresh index hindex]
      rfl

end

namespace Stmt

mutual

theorem translate_of_fresh : (s : Stmt) → s.Fresh → s.translate m = s.relabel m.toRelabelling
  | .empty _, _ => rfl
  | .compound body _, .compound hbody => by
      rw [translate, relabel, translateAll_of_fresh body hbody]
  | .assign target value _, .assign htarget hvalue => by
      rw [translate, relabel, target.translate_of_fresh m htarget,
        value.translate_of_fresh m hvalue]
  | .call _ arguments _, .call harguments => by
      rw [translate, relabel,
        List.map_congr_left fun e he => e.translate_of_fresh m (harguments e he)]
  | .conditional condition thenBranch elseBranch _, .conditional hcondition hthen helse => by
      rw [translate, relabel, condition.translate_of_fresh m hcondition,
        translate_of_fresh thenBranch hthen, translate_of_fresh elseBranch helse]
  | .loop condition body _, .loop hcondition hbody => by
      rw [translate, relabel, condition.translate_of_fresh m hcondition,
        translate_of_fresh body hbody]

theorem translateAll_of_fresh :
    (ss : List Stmt) → (∀ s ∈ ss, s.Fresh) → translateAll m ss = relabelAll m.toRelabelling ss
  | [], _ => rfl
  | s :: ss, h => by
      rw [translateAll, relabelAll, translate_of_fresh s (h s List.mem_cons_self),
        translateAll_of_fresh ss fun s hs => h s (List.mem_cons_of_mem _ hs)]

end

end Stmt

theorem TypeExpr.translate_of_fresh {e : TypeExpr} (h : e.Fresh) :
    e.translate m = e.relabel m.toRelabelling := by
  induction e with
  | named name position slot =>
      obtain rfl : slot = none := h
      rfl
  | array size element position slot ih =>
      obtain ⟨helement, rfl⟩ := h
      rw [translate, relabel, ih helement]
      rfl

theorem Declaration.translate_of_fresh {d : Declaration} (h : d.Fresh) :
    d.translate m = d.relabel m.toRelabelling := by
  cases d with
  | type t =>
      rw [translate, relabel, TypeDeclaration.translate, TypeDeclaration.relabel,
        TypeExpr.translate_of_fresh m h]
  | procedure p =>
      have hparameters : p.parameters.map (Parameter.translate m) =
          p.parameters.map (Parameter.relabel m.toRelabelling) :=
        List.map_congr_left fun q hq => by
          rw [Parameter.translate, Parameter.relabel,
            TypeExpr.translate_of_fresh m (h.parameters q hq)]
      have hlocals : p.locals.map (LocalVariable.translate m) =
          p.locals.map (LocalVariable.relabel m.toRelabelling) :=
        List.map_congr_left fun v hv => by
          rw [LocalVariable.translate, LocalVariable.relabel,
            TypeExpr.translate_of_fresh m (h.locals v hv)]
      rw [translate, relabel, Procedure.translate, Procedure.relabel, hparameters, hlocals,
        Stmt.translateAll_of_fresh m p.body h.body]

theorem Program.translate_of_fresh {p : Program} (h : p.Fresh) :
    p.translate m = p.relabel m.toRelabelling := by
  rw [translate, relabel,
    List.map_congr_left fun d hd => Declaration.translate_of_fresh m (h d hd)]

end Fresh

end Spl
