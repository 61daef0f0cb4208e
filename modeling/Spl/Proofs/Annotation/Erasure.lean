import Spl.Program.Table
import Spl.Program.Typing
import Spl.Proofs.Fresh
import Spl.Proofs.Yielding

/-!
Programs without their types. Erasure empties the slots of all nodes, those of
type expressions apart from those in the bodies of procedures. The passes are
transparent to it: whichever way the builder ends, the program it leaves
differs from the one it was given in slots of type expressions only, and the
checker changes slots in bodies only.
-/

namespace Spl

/-! ### Erasure -/

/-- The type expression as it is written, without the types that were found. -/
def TypeExpr.erase : TypeExpr → TypeExpr
  | .named name position _ => .named name position none
  | .array size element position _ => .array size element.erase position none

mutual

def Expr.erase : Expr → Expr
  | .int value position _ => .int value position none
  | .var v position _ => .var v.erase position none
  | .unary op operand position _ => .unary op operand.erase position none
  | .binary op left right position _ => .binary op left.erase right.erase position none

def Variable.erase : Variable → Variable
  | .named name position _ => .named name position none
  | .element array index position _ => .element array.erase index.erase position none

end

namespace Stmt

mutual

def erase : Stmt → Stmt
  | empty position => empty position
  | compound body position => compound (eraseAll body) position
  | assign target value position => assign target.erase value.erase position
  | call procedure arguments position => call procedure (arguments.map Expr.erase) position
  | conditional condition thenBranch elseBranch position =>
    conditional condition.erase thenBranch.erase elseBranch.erase position
  | loop condition body position => loop condition.erase body.erase position

def eraseAll : List Stmt → List Stmt
  | [] => []
  | s :: ss => s.erase :: eraseAll ss

end

end Stmt

def TypeDeclaration.erase (t : TypeDeclaration) : TypeDeclaration :=
  { t with type := t.type.erase }

def Parameter.erase (p : Parameter) : Parameter :=
  { p with type := p.type.erase }

def LocalVariable.erase (v : LocalVariable) : LocalVariable :=
  { v with type := v.type.erase }

/-- The procedure without the types of its parameters and variables. -/
def Procedure.eraseTypes (p : Procedure) : Procedure :=
  { p with parameters := p.parameters.map Parameter.erase, locals := p.locals.map .erase }

/-- The procedure without the types in its body. -/
def Procedure.eraseBody (p : Procedure) : Procedure :=
  { p with body := Stmt.eraseAll p.body }

def Declaration.eraseTypes : Declaration → Declaration
  | type t => type t.erase
  | procedure p => procedure p.eraseTypes

def Declaration.eraseBody : Declaration → Declaration
  | type t => type t
  | procedure p => procedure p.eraseBody

namespace Program

/-- The program without the types of its type expressions. -/
def eraseTypes (p : Program) : Program :=
  { p with declarations := p.declarations.map Declaration.eraseTypes }

/-- The program without the types of the expressions and variables in its
bodies. -/
def eraseBodies (p : Program) : Program :=
  { p with declarations := p.declarations.map Declaration.eraseBody }

/-- The program without any types. -/
def erase (p : Program) : Program :=
  p.eraseBodies.eraseTypes

end Program

/-! ### Fresh nodes -/

theorem map_eq_self {α : Type} {f : α → α} {xs : List α} (h : ∀ x ∈ xs, f x = x) :
    xs.map f = xs :=
  (List.map_congr_left h).trans (List.map_id xs)

theorem TypeExpr.erase_of_fresh {e : TypeExpr} (h : e.Fresh) : e.erase = e := by
  induction e with
  | named name position slot =>
      obtain rfl : slot = none := h
      rfl
  | array size element position slot ih =>
      obtain ⟨helement, rfl⟩ := h
      rw [erase, ih helement]

mutual

theorem Expr.erase_of_fresh : (e : Expr) → e.Fresh → e.erase = e
  | .int _ _ _, h => by
      obtain rfl := h
      rfl
  | .var v _ _, h => by
      obtain ⟨hv, rfl⟩ := h
      rw [Expr.erase, Variable.erase_of_fresh v hv]
  | .unary _ operand _ _, h => by
      obtain ⟨hoperand, rfl⟩ := h
      rw [Expr.erase, Expr.erase_of_fresh operand hoperand]
  | .binary _ left right _ _, h => by
      obtain ⟨hleft, hright, rfl⟩ := h
      rw [Expr.erase, Expr.erase_of_fresh left hleft, Expr.erase_of_fresh right hright]

theorem Variable.erase_of_fresh : (v : Variable) → v.Fresh → v.erase = v
  | .named _ _ _, h => by
      obtain rfl := h
      rfl
  | .element array index _ _, h => by
      obtain ⟨harray, hindex, rfl⟩ := h
      rw [Variable.erase, Variable.erase_of_fresh array harray, Expr.erase_of_fresh index hindex]

end

namespace Stmt

mutual

theorem erase_of_fresh : (s : Stmt) → s.Fresh → s.erase = s
  | .empty _, _ => rfl
  | .compound body _, .compound h => by rw [erase, eraseAll_of_fresh body h]
  | .assign target value _, .assign ht hv => by
      rw [erase, Variable.erase_of_fresh target ht, Expr.erase_of_fresh value hv]
  | .call _ arguments _, .call h => by
      rw [erase, map_eq_self fun e he => Expr.erase_of_fresh e (h e he)]
  | .conditional condition thenBranch elseBranch _, .conditional hc ht he => by
      rw [erase, Expr.erase_of_fresh condition hc, erase_of_fresh thenBranch ht,
        erase_of_fresh elseBranch he]
  | .loop condition body _, .loop hc hb => by
      rw [erase, Expr.erase_of_fresh condition hc, erase_of_fresh body hb]

theorem eraseAll_of_fresh : (ss : List Stmt) → (∀ s ∈ ss, s.Fresh) → eraseAll ss = ss
  | [], _ => rfl
  | s :: ss, h => by
      obtain ⟨hs, hss⟩ := List.forall_mem_cons.mp h
      rw [eraseAll, erase_of_fresh s hs, eraseAll_of_fresh ss hss]

end

end Stmt

theorem Declaration.eraseTypes_of_fresh {d : Declaration} (h : d.Fresh) : d.eraseTypes = d := by
  cases d with
  | type t =>
      have ht : t.type.Fresh := h
      rw [eraseTypes, TypeDeclaration.erase, TypeExpr.erase_of_fresh ht]
  | procedure p =>
      have hp : p.Fresh := h
      have hparameters : p.parameters.map Parameter.erase = p.parameters :=
        map_eq_self fun q hq => by
          rw [Parameter.erase, TypeExpr.erase_of_fresh (hp.parameters q hq)]
      have hlocals : p.locals.map LocalVariable.erase = p.locals :=
        map_eq_self fun v hv => by
          rw [LocalVariable.erase, TypeExpr.erase_of_fresh (hp.locals v hv)]
      rw [eraseTypes, Procedure.eraseTypes, hparameters, hlocals]

theorem Declaration.eraseBody_of_fresh {d : Declaration}
    (h : ∀ q, d.procedure? = some q → ∀ s ∈ q.body, s.Fresh) : d.eraseBody = d := by
  cases d with
  | type t => rfl
  | procedure p => rw [eraseBody, Procedure.eraseBody, Stmt.eraseAll_of_fresh p.body (h p rfl)]

theorem Program.eraseTypes_of_fresh {p : Program} (h : p.Fresh) : p.eraseTypes = p := by
  rw [eraseTypes, map_eq_self fun d hd => Declaration.eraseTypes_of_fresh (h d hd)]

theorem Program.eraseBodies_of_fresh {p : Program} (h : ∀ q ∈ p.procedures, ∀ s ∈ q.body, s.Fresh) :
    p.eraseBodies = p := by
  rw [eraseBodies, map_eq_self fun d hd => Declaration.eraseBody_of_fresh fun q hq =>
    h q (List.mem_filterMap.mpr ⟨d, hd, hq⟩)]

theorem filterMap_procedure?_eraseTypes (ds : List Declaration) :
    (ds.map Declaration.eraseTypes).filterMap Declaration.procedure? =
      (ds.filterMap Declaration.procedure?).map Procedure.eraseTypes := by
  have hprocedure : Declaration.procedure? ∘ Declaration.eraseTypes =
      Option.map Procedure.eraseTypes ∘ Declaration.procedure? := by
    funext d
    cases d <;> rfl
  rw [List.filterMap_map, hprocedure, List.map_filterMap]
  rfl

/-- The procedures keep their bodies without the types of type expressions. -/
theorem Program.procedures_eraseTypes (p : Program) :
    p.eraseTypes.procedures = p.procedures.map Procedure.eraseTypes :=
  filterMap_procedure?_eraseTypes p.declarations

/-! ### What passes leave -/

namespace Outcome

variable {α β ν μ σ γ : Type}

/-- Whichever way the pass ends, what it leaves has the property. -/
def Leaves (o : Outcome ν α) (P : ν → Prop) : Prop :=
  P o.after

theorem Leaves.of_yields {o : Outcome ν α} {P : ν → Prop} {x : ν} {a : α} (h : o.Leaves P)
    (hx : o.Yields x a) : P x := by
  rwa [Leaves, hx.after_eq] at h

theorem Leaves.andThen {o : Outcome ν α} {rebuild : ν → μ} {next : ν → α → Outcome μ β}
    {P : ν → Prop} {Q : μ → Prop} (h : o.Leaves P) (hstop : ∀ x, P x → Q (rebuild x))
    (hgo : ∀ x a, P x → (next x a).Leaves Q) : (o.andThen rebuild next).Leaves Q := by
  obtain ⟨x, result⟩ := o
  cases result with
  | error halt => exact hstop x h
  | ok a => exact hgo x a h

theorem Leaves.map {o : Outcome ν α} {rebuild : ν → μ} {value : α → β} {Q : μ → Prop}
    (h : o.Leaves fun x => Q (rebuild x)) : (o.map rebuild value).Leaves Q :=
  h

theorem Leaves.write {slot : Slot} {ty : Ty} {node : Slot → ν} {P : ν → Prop}
    (h : ∀ slot, P (node slot)) : (slot.write ty node).Leaves P := by
  cases slot with
  | none => exact h _
  | some was => exact h _

theorem leaves_visitAll {visit : ν → Outcome ν α} {view : ν → γ}
    (h : ∀ x, (visit x).Leaves fun y => view y = view x) (xs : List ν) :
    (visitAll visit xs).Leaves fun ys => ys.map view = xs.map view := by
  induction xs with
  | nil => exact rfl
  | cons x xs ih =>
      rw [visitAll]
      refine Leaves.andThen (h x) ?_ ?_
      · intro y hy
        simp [hy]
      · intro y a hy
        have htail : (visitAll visit xs).after.map view = xs.map view := ih
        change (y :: (visitAll visit xs).after).map view = _
        simp [hy, htail]

theorem leaves_threadAll {visit : ν → σ → Outcome (ν × σ) α} {view : ν → γ}
    (h : ∀ x s, (visit x s).Leaves fun y => view y.1 = view x) (xs : List ν) (s : σ) :
    (threadAll visit xs s).Leaves fun ys => ys.1.map view = xs.map view := by
  induction xs generalizing s with
  | nil => exact rfl
  | cons x xs ih =>
      rw [threadAll]
      refine Leaves.andThen (h x s) ?_ ?_
      · intro y hy
        simp [hy]
      · intro y a hy
        have htail : (threadAll visit xs y.2).after.1.map view = xs.map view := ih y.2
        change (y.1 :: (threadAll visit xs y.2).after.1).map view = _
        simp [hy, htail]

end Outcome

/-! ### The builder -/

theorem TypeExpr.leaves_resolve (Γ : Context) (e : TypeExpr) (fresh : Nat) :
    (e.resolve Γ fresh).Leaves fun after => after.1.erase = e.erase := by
  induction e with
  | named name position slot =>
      rw [resolve]
      split
      · exact Outcome.Leaves.write fun _ => rfl
      · exact rfl
  | array size element position slot ih =>
      rw [resolve]
      refine Outcome.Leaves.andThen ih ?_ ?_
      · intro after h
        simp [erase, h]
      · intro after ty h
        refine Outcome.Leaves.write fun _ => ?_
        simp [erase, h]

theorem TypeExpr.leaves_resolveIn (scope : ScopeId) (e : TypeExpr) (d : Draft) :
    (e.resolveIn scope d).Leaves fun after => after.1.erase = e.erase :=
  TypeExpr.leaves_resolve ⟨d.table, scope⟩ e d.fresh

theorem TypeDeclaration.leaves_declare (t : TypeDeclaration) (d : Draft) :
    (t.declare d).Leaves fun after => after.1.erase = t.erase := by
  refine Outcome.Leaves.andThen (TypeExpr.leaves_resolveIn .global t.type d) ?_ ?_
  · intro after h
    simp [erase, h]
  · intro after ty h
    refine Outcome.Leaves.map ?_
    simp [Outcome.Leaves, erase, h]

theorem Parameter.leaves_declare (scope : ScopeId) (p : Parameter) (d : Draft) :
    (p.declare scope d).Leaves fun after => after.1.erase = p.erase := by
  refine Outcome.Leaves.andThen (TypeExpr.leaves_resolveIn .global p.type d) ?_ ?_
  · intro after h
    simp [erase, h]
  · intro after ty h
    dsimp only
    split
    · simp [Outcome.Leaves, erase, h]
    · refine Outcome.Leaves.map ?_
      simp [Outcome.Leaves, erase, h]

theorem LocalVariable.leaves_declare (scope : ScopeId) (v : LocalVariable) (d : Draft) :
    (v.declare scope d).Leaves fun after => after.1.erase = v.erase := by
  refine Outcome.Leaves.andThen (TypeExpr.leaves_resolveIn scope v.type d) ?_ ?_
  · intro after h
    simp [erase, h]
  · intro after ty h
    refine Outcome.Leaves.map ?_
    simp [Outcome.Leaves, erase, h]

theorem Procedure.leaves_declare (p : Procedure) (d : Draft) :
    (p.declare d).Leaves fun after => after.1.eraseTypes = p.eraseTypes := by
  rw [Procedure.declare]
  generalize d.table.nest .global = nested
  obtain ⟨table, scope⟩ := nested
  refine Outcome.Leaves.andThen
    (Outcome.leaves_threadAll (Parameter.leaves_declare scope) p.parameters _) ?_ ?_
  · intro after h
    simp [eraseTypes, h]
  · intro after formals h
    refine Outcome.Leaves.andThen
      (Outcome.leaves_threadAll (LocalVariable.leaves_declare scope) p.locals after.2) ?_ ?_
    · intro after' h'
      simp [eraseTypes, h, h']
    · intro after' _ h'
      refine Outcome.Leaves.map ?_
      simp [Outcome.Leaves, eraseTypes, h, h']

theorem Declaration.leaves_declare (options : Options) (declaration : Declaration) (d : Draft) :
    (declaration.declare options d).Leaves fun after =>
      after.1.eraseTypes = declaration.eraseTypes := by
  cases declaration with
  | type t =>
      rw [Declaration.declare]
      refine Outcome.Leaves.map ?_
      exact congrArg Declaration.type (TypeDeclaration.leaves_declare t d)
  | procedure p =>
      rw [Declaration.declare]
      refine Outcome.Leaves.andThen (Procedure.leaves_declare p d) ?_ ?_
      · intro after h
        exact congrArg Declaration.procedure h
      · intro after scope h
        dsimp only
        split
        · exact congrArg Declaration.procedure h
        · exact congrArg Declaration.procedure h

/-- The builder writes into type expressions only. -/
theorem Program.leaves_buildTable (options : Options) (p : Program) (fresh : Nat)
    (output : Text.Sink) :
    (p.buildTable options fresh output).Leaves fun after =>
      after.1.eraseTypes = p.eraseTypes := by
  rw [buildTable]
  split
  · exact rfl
  · next table _ =>
      refine Outcome.Leaves.andThen
        (Outcome.leaves_threadAll (Declaration.leaves_declare options) p.declarations _) ?_ ?_
      · intro after h
        simp [eraseTypes, h]
      · intro after _ h
        simp [Outcome.Leaves, eraseTypes, h]

/-! ### The checker -/

mutual

theorem Expr.leaves_check (Γ : Context) :
    (e : Expr) → (e.check Γ).Leaves fun after => after.erase = e.erase
  | .int value position slot => Outcome.Leaves.write fun _ => rfl
  | .var v position slot => by
      refine Outcome.Leaves.andThen (Variable.leaves_check Γ v) ?_ ?_
      · intro after h
        simp [Expr.erase, h]
      · intro after ty h
        refine Outcome.Leaves.write fun _ => ?_
        simp [Expr.erase, h]
  | .unary op operand position slot => by
      refine Outcome.Leaves.andThen (Expr.leaves_check Γ operand) ?_ ?_
      · intro after h
        simp [Expr.erase, h]
      · intro after ty h
        split
        · refine Outcome.Leaves.write fun _ => ?_
          simp [Expr.erase, h]
        · simp [Outcome.Leaves, Expr.erase, h]
  | .binary op left right position slot => by
      refine Outcome.Leaves.andThen (Expr.leaves_check Γ left) ?_ ?_
      · intro after h
        simp [Expr.erase, h]
      · intro left' leftTy hleft
        refine Outcome.Leaves.andThen (Expr.leaves_check Γ right) ?_ ?_
        · intro after h
          simp [Expr.erase, hleft, h]
        · intro right' rightTy hright
          split
          · refine Outcome.Leaves.write fun _ => ?_
            simp [Expr.erase, hleft, hright]
          · simp [Outcome.Leaves, Expr.erase, hleft, hright]

theorem Variable.leaves_check (Γ : Context) :
    (v : Variable) → (v.check Γ).Leaves fun after => after.erase = v.erase
  | .named name position slot => by
      rw [Variable.check]
      split
      · exact Outcome.Leaves.write fun _ => rfl
      · exact rfl
  | .element array index position slot => by
      refine Outcome.Leaves.andThen (Variable.leaves_check Γ array) ?_ ?_
      · intro after h
        simp [Variable.erase, h]
      · intro array' arrayTy harray
        refine Outcome.Leaves.andThen (Expr.leaves_check Γ index) ?_ ?_
        · intro after h
          simp [Variable.erase, harray, h]
        · intro index' indexTy hindex
          split
          · simp [Outcome.Leaves, Variable.erase, harray, hindex]
          · split
            · refine Outcome.Leaves.write fun _ => ?_
              simp [Variable.erase, harray, hindex]
            · simp [Outcome.Leaves, Variable.erase, harray, hindex]

end

theorem leaves_checkCondition (Γ : Context) (condition : Expr) (cause : String → Cause)
    (position : Position) :
    (checkCondition Γ condition cause position).Leaves fun after =>
      after.erase = condition.erase :=
  Outcome.Leaves.andThen (Expr.leaves_check Γ condition) (fun _ h => h) fun _ _ h => h

namespace Stmt

mutual

theorem leaves_check (Γ : Context) :
    (s : Stmt) → (s.check Γ).Leaves fun after => after.erase = s.erase
  | .empty position => rfl
  | .compound body position => by
      refine Outcome.Leaves.map ?_
      exact congrArg (compound · position) (leaves_checkAll Γ body)
  | .assign target value position => by
      refine Outcome.Leaves.andThen (Variable.leaves_check Γ target) ?_ ?_
      · intro after h
        simp [erase, h]
      · intro target' targetTy htarget
        refine Outcome.Leaves.andThen (Expr.leaves_check Γ value) ?_ ?_
        · intro after h
          simp [erase, htarget, h]
        · intro value' valueTy hvalue
          simp [Outcome.Leaves, erase, htarget, hvalue]
  | .call procedure arguments position => by
      rw [check]
      split
      · exact rfl
      · refine Outcome.Leaves.andThen
          (Outcome.leaves_visitAll (Expr.leaves_check Γ) arguments) ?_ ?_
        · intro after h
          simp [erase, h]
        · intro after tys h
          simp [Outcome.Leaves, erase, h]
  | .conditional condition thenBranch elseBranch position => by
      refine Outcome.Leaves.andThen (leaves_checkCondition Γ condition _ position) ?_ ?_
      · intro after h
        simp [erase, h]
      · intro condition' _ hcondition
        refine Outcome.Leaves.andThen (leaves_check Γ thenBranch) ?_ ?_
        · intro after h
          simp [erase, hcondition, h]
        · intro thenBranch' _ hthen
          have helse : (elseBranch.check Γ).after.erase = elseBranch.erase :=
            leaves_check Γ elseBranch
          simp [Outcome.Leaves, erase, hcondition, hthen, helse]
  | .loop condition body position => by
      refine Outcome.Leaves.andThen (leaves_checkCondition Γ condition _ position) ?_ ?_
      · intro after h
        simp [erase, h]
      · intro condition' _ hcondition
        have hbody : (body.check Γ).after.erase = body.erase := leaves_check Γ body
        simp [Outcome.Leaves, erase, hcondition, hbody]

theorem leaves_checkAll (Γ : Context) :
    (ss : List Stmt) → (checkAll Γ ss).Leaves fun after => eraseAll after = eraseAll ss
  | [] => rfl
  | s :: ss => by
      refine Outcome.Leaves.andThen (leaves_check Γ s) ?_ ?_
      · intro after h
        simp [eraseAll, h]
      · intro after _ h
        have hrest : eraseAll (checkAll Γ ss).after = eraseAll ss := leaves_checkAll Γ ss
        simp [Outcome.Leaves, eraseAll, h, hrest]

end

end Stmt

theorem Procedure.leaves_check (table : SymbolTable) (p : Procedure) :
    (p.check table).Leaves fun after => after.eraseBody = p.eraseBody := by
  rw [Procedure.check]
  split
  · exact rfl
  · exact rfl
  · next signature _ =>
      have hbody : Stmt.eraseAll (Stmt.checkAll ⟨table, signature.scope⟩ p.body).after =
          Stmt.eraseAll p.body := Stmt.leaves_checkAll ⟨table, signature.scope⟩ p.body
      simp [Outcome.Leaves, eraseBody, hbody]

theorem Declaration.leaves_check (table : SymbolTable) (d : Declaration) :
    (d.check table).Leaves fun after => after.eraseBody = d.eraseBody := by
  cases d with
  | type t => exact rfl
  | procedure p => exact congrArg Declaration.procedure (Procedure.leaves_check table p)

/-- The checker writes into bodies only. -/
theorem Program.leaves_check (table : SymbolTable) (p : Program) :
    (p.check table).Leaves fun after => after.eraseBodies = p.eraseBodies := by
  refine Outcome.Leaves.map ?_
  have hall : (Outcome.visitAll (Declaration.check table) p.declarations).after.map
      Declaration.eraseBody = p.declarations.map Declaration.eraseBody :=
    Outcome.leaves_visitAll (Declaration.leaves_check table) p.declarations
  simp [Outcome.Leaves, eraseBodies, hall]

theorem Program.leaves_diagnose (table : SymbolTable) (p : Program) :
    (p.diagnose table).Leaves fun after => after.eraseBodies = p.eraseBodies := by
  have hvisit : ∀ d : Declaration, (d.check table).diagnosed.Leaves fun after =>
      after.eraseBody = d.eraseBody := by
    intro d
    rw [Outcome.Leaves, Outcome.after_diagnosed]
    exact Declaration.leaves_check table d
  refine Outcome.Leaves.map ?_
  have hall : (Outcome.visitAll (fun d => (d.check table).diagnosed) p.declarations).after.map
      Declaration.eraseBody = p.declarations.map Declaration.eraseBody :=
    Outcome.leaves_visitAll hvisit p.declarations
  simp [Outcome.Leaves, eraseBodies, hall]

end Spl
