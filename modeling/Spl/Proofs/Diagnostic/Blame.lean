import Spl.Proofs.Annotation.Erasure
import Spl.Proofs.Diagnostic.Placing
import Spl.Proofs.Scope.Library

/-!
What diagnostics are blamed on. Work blames a property if the diagnostic that it
ends with, if it ends with one, has the property. The builder and the checker
blame nodes, and a node stands where the token is that the diagnostic names.
-/

namespace Spl

variable {α β ν μ σ : Type}

/-! ### The judgment -/

/-- A diagnostic that the work ends with has the property. -/
def Blames (x : Except Halt α) (P : Diagnostic → Prop) : Prop :=
  ∀ d, x = .error (.diagnostic d) → P d

namespace Blames

variable {x : Except Halt α} {P : Diagnostic → Prop}

theorem ok {a : α} : Blames (.ok a) P := nofun

theorem fault {fault : Fault} : Blames (.error (.fault fault) : Except Halt α) P := nofun

theorem diagnostic {d : Diagnostic} (h : P d) :
    Blames (.error (.diagnostic d) : Except Halt α) P := by
  rintro _ ⟨⟩
  exact h

theorem halt {cause : Cause} {position : Position} (h : P ⟨cause, position⟩) :
    Blames (.error (cause.halt position) : Except Halt α) P :=
  .diagnostic h

/-- What ends a part may end the whole. -/
theorem error {halt : Halt} (h : Blames x P) (hx : x = .error halt) :
    Blames (.error halt : Except Halt β) P := by
  rintro d ⟨⟩
  exact h d hx

theorem map {f : α → β} (h : Blames x P) : Blames (x.map f) P := by
  cases x with
  | ok a => exact .ok
  | error halt => exact h.error rfl

theorem mono {Q : Diagnostic → Prop} (h : Blames x P) (hPQ : ∀ d, P d → Q d) : Blames x Q :=
  fun d hd => hPQ d (h d hd)

end Blames

namespace Outcome

def Blames (o : Outcome ν α) (P : Diagnostic → Prop) : Prop :=
  Spl.Blames o.result P

namespace Blames

variable {o : Outcome ν α} {P : Diagnostic → Prop}

theorem andThen {rebuild : ν → μ} {next : ν → α → Outcome μ β} (h : o.Blames P)
    (hnext : ∀ a, o.result = .ok a → (next o.after a).Blames P) :
    (o.andThen rebuild next).Blames P := by
  obtain ⟨x, result⟩ := o
  cases result with
  | ok a => exact hnext a rfl
  | error halt => exact Spl.Blames.error h rfl

theorem map {rebuild : ν → μ} {value : α → β} (h : o.Blames P) :
    (o.map rebuild value).Blames P :=
  Spl.Blames.map h

theorem write {slot : Slot} {ty : Ty} {node : Slot → ν} : (slot.write ty node).Blames P := by
  cases slot with
  | none => exact .ok
  | some was => exact .fault

theorem visitAll {visit : ν → Outcome ν α} {xs : List ν} (h : ∀ x ∈ xs, (visit x).Blames P) :
    (visitAll visit xs).Blames P := by
  induction xs with
  | nil => exact .ok
  | cons x xs ih =>
      obtain ⟨hx, hxs⟩ := List.forall_mem_cons.mp h
      exact andThen hx fun _ _ => map (ih hxs)

theorem threadAll {visit : ν → σ → Outcome (ν × σ) α} {xs : List ν} {s : σ}
    (h : ∀ x ∈ xs, ∀ s, (visit x s).Blames P) : (threadAll visit xs s).Blames P := by
  induction xs generalizing s with
  | nil => exact .ok
  | cons x xs ih =>
      obtain ⟨hx, hxs⟩ := List.forall_mem_cons.mp h
      exact andThen (hx s) fun _ _ => map (ih hxs)

end Blames

end Outcome

/-! ### Places of diagnostics -/

/-- The token shows what a diagnostic with this cause is about. -/
def Cause.ShownBy (ts : List Token) : Cause → Token → Prop
  | .unexpectedToken token, t | .unexpectedTokenDetailed token _, t | .numberParseError token, t =>
    t.value = token
  | .redeclarationAsType name, t => t.kind = .typeWord ∧ t.Before ts (Token.IsName name)
  | .redeclarationAsProcedure name, t | .redeclarationAsVariable name, t
  | .redeclarationAsParameter name, t | .undefinedType name, t | .notAType name, t
  | .mustBeAReferenceParameter name, t | .undefinedVariable name, t | .notAVariable name, t
  | .undefinedProcedure name, t | .callOfNonProcedure name, t | .tooManyArguments name, t
  | .tooFewArguments name, t | .argumentMustBeAVariable name _, t
  | .argumentTypeMismatch name _ _ _, t =>
    t.IsName name
  | .illegalAssignment _ _, t | .illegalAssignmentToArray, t => t.kind = .assignment
  | .ifConditionMustBeBoolean _, t => t.kind = .ifWord
  | .whileConditionMustBeBoolean _, t => t.kind = .whileWord
  | .noSuchOperator operator _ none, t => t.kind = .dash ∧ t.value = operator
  | .noSuchOperator operator _ (some _), t =>
    (∃ op, (t.kind, op) ∈ Token.operators) ∧ t.value = operator
  | .indexingNonArray, t | .indexingWithNonInteger, t =>
    t.kind = .identifier ∧ t.Before ts (·.kind = .openBracket)
  | .tableDumpFailed _, t => t.kind = .identifier ∧ t.Behind ts (·.kind = .procWord)
  | .unrecognisedToken _, _ | .mainIsMissing, _ | .mainIsNotAProcedure, _
  | .mainMustNotHaveParameters, _ => False

/-- The diagnostic has the place of a token that shows what it is about. -/
def Diagnostic.Points (ts : List Token) (d : Diagnostic) : Prop :=
  d.position.Shows ts (d.cause.ShownBy ts)

/-- The procedure `main` is not as it should be. There is no place for that. -/
def Diagnostic.IsOfMain (d : Diagnostic) : Prop :=
  d ∈ [⟨.mainIsMissing, .null⟩, ⟨.mainIsNotAProcedure, .null⟩, ⟨.mainMustNotHaveParameters, .null⟩]

/-! ### The checker -/

section Checker

variable {ts : List Token} {Γ : Context}

theorem Context.blames_lookup {name : String} {P : Diagnostic → Prop}
    {f : Option Entry → Except Halt α} (h : ∀ found, Blames (f found) P) :
    Blames (Γ.lookup name >>= f) P := by
  rw [lookup]
  cases Γ.table.lookup Γ.scope name with
  | error fault => exact .fault
  | ok found => exact h found

theorem Context.blames_variableNamed {name : String} {position : Position}
    (h : position.Shows ts (Token.IsName name)) :
    Blames (Γ.variableNamed name position) (Diagnostic.Points ts) := by
  refine blames_lookup fun found => ?_
  match found with
  | none => exact .halt h
  | some (.var _ _) => exact .ok
  | some (.type _) => exact .halt h
  | some (.procedure _) => exact .halt h

theorem Context.blames_procedureNamed {name : String} {position : Position}
    (h : position.Shows ts (Token.IsName name)) :
    Blames (Γ.procedureNamed name position) (Diagnostic.Points ts) := by
  refine blames_lookup fun found => ?_
  match found with
  | none => exact .halt h
  | some (.procedure _) => exact .ok
  | some (.type _) => exact .halt h
  | some (.var _ _) => exact .halt h

theorem Context.blames_typeNamed {name : String} {position : Position}
    (h : position.Shows ts (Token.IsName name)) :
    Blames (Γ.typeNamed name position) (Diagnostic.Points ts) := by
  refine blames_lookup fun found => ?_
  match found with
  | none => exact .halt h
  | some (.type _) => exact .ok
  | some (.var _ _) => exact .halt h
  | some (.procedure _) => exact .halt h

mutual

theorem Expr.blames_check : (e : Expr) → e.Placed ts → (e.check Γ).Blames (Diagnostic.Points ts)
  | .int _ _ _, _ => .write
  | .var v _ _, h => .andThen (Variable.blames_check v h) fun _ _ => .write
  | .unary op operand position slot, ⟨hoperand, hsign⟩ => by
      refine .andThen (Expr.blames_check operand hoperand) fun ty _ => ?_
      split
      · exact .write
      · exact .halt hsign
  | .binary op left right position slot, ⟨hleft, hright, hmark⟩ => by
      refine .andThen (Expr.blames_check left hleft) fun leftTy _ => ?_
      refine .andThen (Expr.blames_check right hright) fun rightTy _ => ?_
      split
      · exact .write
      · exact .halt (hmark.mono fun t ht => ⟨⟨op, ht.1⟩, ht.2⟩)

theorem Variable.blames_check :
    (v : Variable) → v.Placed ts → (v.check Γ).Blames (Diagnostic.Points ts)
  | .named name position slot, h => by
      have hname : Blames (Γ.variableNamed name position) (Diagnostic.Points ts) :=
        Context.blames_variableNamed h
      rw [Variable.check]
      split
      · exact .write
      · next halt hhalt => exact hname.error hhalt
  | .element array index position slot, ⟨harray, hindex, hname⟩ => by
      refine .andThen (Variable.blames_check array harray) fun arrayTy _ => ?_
      refine .andThen (Expr.blames_check index hindex) fun indexTy _ => ?_
      split
      · exact .halt hname
      · split
        · exact .write
        · exact .halt hname

end

theorem blames_assignable {targetTy valueTy : Ty} {position : Position}
    (h : position.Shows ts (·.kind = .assignment)) :
    Blames (assignable targetTy valueTy position) (Diagnostic.Points ts) := by
  rw [assignable]
  split
  · exact .halt h
  · split
    · exact .halt h
    · exact .ok

theorem blames_argumentsAgree {procedure : String} {position : Position}
    (h : position.Shows ts (Token.IsName procedure)) (index : Nat) (formals : List Formal)
    (es : List Expr) (tys : List Ty) :
    Blames (argumentsAgree procedure position index formals es tys) (Diagnostic.Points ts) := by
  fun_induction argumentsAgree procedure position index formals es tys with
  | case1 => exact .halt h
  | case2 => exact .halt h
  | case3 _ _ _ _ _ _ _ _ _ ih => exact ih
  | case4 => exact .ok

theorem blames_callable {signature : Signature} {procedure : String} {es : List Expr}
    {tys : List Ty} {position : Position} (h : position.Shows ts (Token.IsName procedure)) :
    Blames (callable signature procedure es tys position) (Diagnostic.Points ts) := by
  rw [callable]
  split
  · exact .halt h
  · split
    · exact .halt h
    · exact blames_argumentsAgree h 0 _ es tys

theorem blames_checkCondition {condition : Expr} (hcondition : condition.Placed ts)
    {cause : String → Cause} {position : Position}
    (h : ∀ actual, position.Shows ts ((cause actual).ShownBy ts)) :
    (checkCondition Γ condition cause position).Blames (Diagnostic.Points ts) := by
  refine .andThen (Expr.blames_check condition hcondition) fun ty _ => ?_
  rw [Outcome.Blames]
  split
  · exact .ok
  · exact .halt (h _)

namespace Stmt

mutual

theorem blames_check : (s : Stmt) → s.Placed ts → (s.check Γ).Blames (Diagnostic.Points ts)
  | .empty _, _ => .ok
  | .compound body _, .compound h => .map (blames_checkAll body h)
  | .assign target value position, .assign htarget hvalue hmark =>
      .andThen (Variable.blames_check target htarget) fun _ _ =>
        .andThen (Expr.blames_check value hvalue) fun _ _ => blames_assignable hmark
  | .call procedure es position, .call hes hname => by
      have hprocedure : Blames (Γ.procedureNamed procedure position) (Diagnostic.Points ts) :=
        Context.blames_procedureNamed hname
      rw [check]
      split
      · next halt hhalt => exact hprocedure.error hhalt
      · exact .andThen (.visitAll fun e he => Expr.blames_check e (hes e he)) fun _ _ =>
          blames_callable hname
  | .conditional condition thenBranch elseBranch position, .conditional hc ht he hword =>
      .andThen (blames_checkCondition hc fun _ => hword) fun _ _ =>
        .andThen (blames_check thenBranch ht) fun _ _ => .map (blames_check elseBranch he)
  | .loop condition body position, .loop hc hb hword =>
      .andThen (blames_checkCondition hc fun _ => hword) fun _ _ => .map (blames_check body hb)

theorem blames_checkAll :
    (ss : List Stmt) → (∀ s ∈ ss, s.Placed ts) → (checkAll Γ ss).Blames (Diagnostic.Points ts)
  | [], _ => .ok
  | s :: ss, h =>
      .andThen (blames_check s (h s List.mem_cons_self)) fun _ _ =>
        .map (blames_checkAll ss fun t ht => h t (List.mem_cons_of_mem s ht))

end

end Stmt

/-- What the checker reads of a procedure stands where it is shown. -/
structure Procedure.BodyPlaced (ts : List Token) (p : Procedure) : Prop where
  body : ∀ s ∈ p.body, s.Placed ts
  name : p.position.Shows ts (Token.IsName p.name)

theorem Procedure.blames_check {table : SymbolTable} {p : Procedure} (h : p.BodyPlaced ts) :
    (p.check table).Blames (Diagnostic.Points ts) := by
  rw [Procedure.check]
  split
  · exact .fault
  · exact .halt h.name
  · exact .map (Stmt.blames_checkAll p.body h.body)

theorem Program.blames_check {table : SymbolTable} {p : Program}
    (h : ∀ q ∈ p.procedures, q.BodyPlaced ts) :
    (p.check table).Blames (Diagnostic.Points ts) := by
  refine .map (.visitAll fun d hd => ?_)
  cases d with
  | type t => exact .ok
  | procedure q => exact .map (Procedure.blames_check (h q (List.mem_filterMap.mpr ⟨_, hd, rfl⟩)))

end Checker

/-! ### The builder -/

section Builder

variable {ts : List Token} {d : Draft}

theorem TypeExpr.blames_resolve {Γ : Context} {e : TypeExpr} (h : e.Placed ts) (fresh : Nat) :
    (e.resolve Γ fresh).Blames (Diagnostic.Points ts) := by
  induction e with
  | named name position slot =>
      have hname : Blames (Γ.typeNamed name position) (Diagnostic.Points ts) :=
        Context.blames_typeNamed h
      rw [resolve]
      split
      · exact .write
      · next halt hhalt => exact hname.error hhalt
  | array size element position slot ih => exact .andThen (ih h) fun _ _ => .write

theorem TypeExpr.blames_resolveIn {e : TypeExpr} (h : e.Placed ts) (scope : ScopeId) :
    (e.resolveIn scope d).Blames (Diagnostic.Points ts) :=
  .map (blames_resolve h d.fresh)

theorem Draft.blames_declare {scope : ScopeId} {name : String} {entry : Entry}
    {complaint : Diagnostic} (h : complaint.Points ts) :
    (d.declare scope name entry complaint).Blames (Diagnostic.Points ts) := by
  have henter : (d.table.enter scope name entry complaint).Blames (Diagnostic.Points ts) := by
    cases hs : d.table.scope scope with
    | error fault =>
        rw [SymbolTable.enter_of_fault hs]
        exact .fault
    | ok s =>
        cases hget : s.get? name with
        | some taken =>
            rw [SymbolTable.enter_of_taken hs hget]
            exact .diagnostic h
        | none =>
            rw [SymbolTable.enter_of_free hs hget]
            exact .ok
  exact .map henter

theorem TypeDeclaration.blames_declare {t : TypeDeclaration} (h : t.Placed ts) :
    (t.declare d).Blames (Diagnostic.Points ts) :=
  .andThen (TypeExpr.blames_resolveIn h.type .global) fun _ _ =>
    .map (Draft.blames_declare h.start)

theorem Parameter.blames_declare {scope : ScopeId} {p : Parameter} (h : p.Placed ts) :
    (p.declare scope d).Blames (Diagnostic.Points ts) := by
  refine .andThen (TypeExpr.blames_resolveIn h.type .global) fun ty _ => ?_
  dsimp only
  split
  · exact .halt h.name
  · exact .map (Draft.blames_declare h.name)

theorem LocalVariable.blames_declare {scope : ScopeId} {v : LocalVariable} (h : v.Placed ts) :
    (v.declare scope d).Blames (Diagnostic.Points ts) :=
  .andThen (TypeExpr.blames_resolveIn h.type scope) fun _ _ =>
    .map (Draft.blames_declare h.name)

theorem Procedure.blames_declare {p : Procedure} (h : p.Placed ts) :
    (p.declare d).Blames (Diagnostic.Points ts) := by
  refine .andThen (.threadAll fun q hq _ => Parameter.blames_declare (h.parameters q hq)) ?_
  intro formals _
  refine .andThen (.threadAll fun v hv _ => LocalVariable.blames_declare (h.locals v hv)) ?_
  intro _ _
  exact .map (Draft.blames_declare (h.name.mono fun t ht => ht.1))

theorem Draft.blames_list {p : Procedure} {scope : ScopeId}
    (h : p.position.Shows ts fun t => t.IsName p.name ∧ t.Behind ts (·.kind = .procWord)) :
    (d.list p scope).Blames (Diagnostic.Points ts) := by
  rw [list]
  split
  · exact .fault
  · rw [Outcome.Blames]
    dsimp only
    split
    · exact .ok
    · exact .halt (h.mono fun t ht => ⟨ht.1.1, ht.2⟩)

theorem Declaration.blames_declare {options : Options} {declaration : Declaration}
    (h : declaration.Placed ts) :
    (declaration.declare options d).Blames (Diagnostic.Points ts) := by
  cases declaration with
  | type t => exact .map (TypeDeclaration.blames_declare h)
  | procedure p =>
      refine .andThen (Procedure.blames_declare h) fun scope _ => ?_
      have hafter : (p.declare d).after.1.eraseTypes = p.eraseTypes := Procedure.leaves_declare p d
      have hname : (p.declare d).after.1.name = p.name := (congrArg Procedure.name hafter :)
      have hposition : (p.declare d).after.1.position = p.position :=
        (congrArg Procedure.position hafter :)
      dsimp only
      split
      · refine .map (Draft.blames_list ?_)
        rw [hname, hposition]
        exact h.name
      · exact .ok

theorem SymbolTable.blames_entryPoint (t : SymbolTable) :
    Blames t.entryPoint Diagnostic.IsOfMain := by
  rw [entryPoint]
  cases t.get .global "main" with
  | error fault => exact .fault
  | ok found =>
      match found with
      | none => exact .halt (by simp [Diagnostic.IsOfMain])
      | some (.type _) => exact .halt (by simp [Diagnostic.IsOfMain])
      | some (.var _ _) => exact .halt (by simp [Diagnostic.IsOfMain])
      | some (.procedure s) =>
          change Blames (if s.formals.isEmpty then .ok () else
            .error (Cause.halt .mainMustNotHaveParameters .null)) Diagnostic.IsOfMain
          split
          · exact .ok
          · exact .halt (by simp [Diagnostic.IsOfMain])

theorem Program.blames_buildTable {options : Options} {p : Program}
    (h : ∀ d ∈ p.declarations, d.Placed ts) (fresh : Nat) (output : Text.Sink) :
    (p.buildTable options fresh output).Blames fun d => d.Points ts ∨ d.IsOfMain := by
  obtain ⟨table, htable, -⟩ := SymbolTable.exists_initial options.library
  rw [buildTable, htable]
  refine .andThen (.threadAll fun d hd _ => ?_) fun _ _ => ?_
  · exact Blames.mono (Declaration.blames_declare (h d hd)) fun _ => .inl
  · exact (Blames.mono (SymbolTable.blames_entryPoint _) fun _ => .inr).map

end Builder

end Spl
