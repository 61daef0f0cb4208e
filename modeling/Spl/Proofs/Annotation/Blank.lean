import Spl.Proofs.Annotation.Erasure

/-!
Both passes write each slot once, and a slot that is written already stops them.
So a program that both of them finish with carried no types before.
-/

namespace Spl

open Outcome

/-! ### Walks over lists -/

section Walks

variable {α ν σ : Type}

theorem Outcome.forall_of_yields_visitAll {visit : ν → Outcome ν α} {P : ν → Prop}
    (hvisit : ∀ x y a, (visit x).Yields y a → P x) {xs ys : List ν} {as : List α}
    (h : (visitAll visit xs).Yields ys as) : ∀ x ∈ xs, P x := by
  induction xs generalizing ys as with
  | nil => exact List.forall_mem_nil P
  | cons x xs ih =>
      obtain ⟨y, a, hfirst, hrest⟩ := yields_andThen_iff.mp h
      obtain ⟨ys, as, hrest, -, -⟩ := yields_map_iff.mp hrest
      exact List.forall_mem_cons.mpr ⟨hvisit _ _ _ hfirst, ih hrest⟩

theorem Outcome.Threaded.forall {visit : ν → σ → Outcome (ν × σ) α} {P : ν → Prop}
    (hvisit : ∀ x s y a, (visit x s).Yields y a → P x) {xs ys : List ν} {s t : σ} {as : List α}
    (h : Threaded visit xs s ys t as) : ∀ x ∈ xs, P x := by
  induction h with
  | nil => exact List.forall_mem_nil P
  | cons h _ ih => exact List.forall_mem_cons.mpr ⟨hvisit _ _ _ _ h, ih⟩

end Walks

/-! ### The builder -/

theorem TypeExpr.fresh_of_yields_resolve {Γ : Context} {e : TypeExpr} {fresh : Nat}
    {after : TypeExpr × Nat} {ty : Ty} (h : (e.resolve Γ fresh).Yields after ty) : e.Fresh := by
  induction e generalizing after ty with
  | named name position slot =>
      rw [resolve] at h
      split at h
      · exact (yields_write_iff.mp h).1
      · exact absurd h not_yields_error
  | array size element position slot ih =>
      rw [resolve] at h
      obtain ⟨_, _, helement, hwrite⟩ := yields_andThen_iff.mp h
      exact ⟨ih helement, (yields_write_iff.mp hwrite).1⟩

theorem TypeExpr.fresh_of_yields_resolveIn {scope : ScopeId} {e : TypeExpr} {d : Draft}
    {after : TypeExpr × Draft} {ty : Ty} (h : (e.resolveIn scope d).Yields after ty) : e.Fresh := by
  obtain ⟨_, _, hresolve, -, -⟩ := yields_map_iff.mp h
  exact fresh_of_yields_resolve hresolve

theorem Parameter.fresh_of_yields_declare (scope : ScopeId) (p : Parameter) (d : Draft)
    (after : Parameter × Draft) (formal : Formal) (h : (p.declare scope d).Yields after formal) :
    p.type.Fresh := by
  obtain ⟨_, _, hresolve, -⟩ := yields_andThen_iff.mp h
  exact TypeExpr.fresh_of_yields_resolveIn hresolve

theorem LocalVariable.fresh_of_yields_declare (scope : ScopeId) (v : LocalVariable) (d : Draft)
    (after : LocalVariable × Draft) (answer : Unit) (h : (v.declare scope d).Yields after answer) :
    v.type.Fresh := by
  obtain ⟨_, _, hresolve, -⟩ := yields_andThen_iff.mp h
  exact TypeExpr.fresh_of_yields_resolveIn hresolve

/-- The type expressions of a declaration carry no types. -/
def Declaration.FreshTypes : Declaration → Prop
  | type t => t.type.Fresh
  | procedure p => (∀ q ∈ p.parameters, q.type.Fresh) ∧ ∀ v ∈ p.locals, v.type.Fresh

theorem Declaration.freshTypes_of_yields_declare {options : Options} (declaration : Declaration)
    (d : Draft) (after : Declaration × Draft) (answer : Unit)
    (h : (declaration.declare options d).Yields after answer) : declaration.FreshTypes := by
  cases declaration with
  | type t =>
      rw [declare] at h
      obtain ⟨_, _, hdeclare, -, -⟩ := yields_map_iff.mp h
      obtain ⟨_, _, hresolve, -⟩ := yields_andThen_iff.mp hdeclare
      exact TypeExpr.fresh_of_yields_resolveIn hresolve
  | procedure p =>
      rw [declare] at h
      obtain ⟨_, _, hdeclare, -⟩ := yields_andThen_iff.mp h
      rw [Procedure.declare] at hdeclare
      generalize d.table.nest .global = nested at hdeclare
      obtain ⟨⟨_, _⟩, _, hparameters, hrest⟩ := yields_andThen_iff.mp hdeclare
      obtain ⟨⟨_, _⟩, _, hlocals, -⟩ := yields_andThen_iff.mp hrest
      exact ⟨(yields_threadAll_iff.mp hparameters).forall (Parameter.fresh_of_yields_declare _),
        (yields_threadAll_iff.mp hlocals).forall (LocalVariable.fresh_of_yields_declare _)⟩

theorem Program.freshTypes_of_buildTable {options : Options} {p : Program} {fresh : Nat}
    {output : Text.Sink} {after : Program × Draft} {table : SymbolTable}
    (h : (p.buildTable options fresh output).Yields after table) :
    ∀ d ∈ p.declarations, d.FreshTypes := by
  rw [buildTable] at h
  split at h
  · exact absurd h not_yields_error
  · obtain ⟨⟨_, _⟩, _, hdeclare, -⟩ := yields_andThen_iff.mp h
    exact (yields_threadAll_iff.mp hdeclare).forall Declaration.freshTypes_of_yields_declare

/-! ### The checker -/

section Bodies

variable {Γ : Context}

mutual

theorem Expr.fresh_of_yields_check : (e e' : Expr) → (ty : Ty) → (e.check Γ).Yields e' ty → e.Fresh
  | .int _ _ slot, _, _, h => (yields_write_iff.mp h).1
  | .var v _ slot, _, _, h => by
      obtain ⟨_, _, hv, hwrite⟩ := yields_andThen_iff.mp h
      exact ⟨Variable.fresh_of_yields_check v _ _ hv, (yields_write_iff.mp hwrite).1⟩
  | .unary _ operand _ slot, _, _, h => by
      obtain ⟨_, _, hoperand, hwrite⟩ := yields_andThen_iff.mp h
      split at hwrite
      · exact ⟨Expr.fresh_of_yields_check operand _ _ hoperand, (yields_write_iff.mp hwrite).1⟩
      · exact absurd hwrite not_yields_error
  | .binary _ left right _ slot, _, _, h => by
      obtain ⟨_, _, hleft, hrest⟩ := yields_andThen_iff.mp h
      obtain ⟨_, _, hright, hwrite⟩ := yields_andThen_iff.mp hrest
      split at hwrite
      · exact ⟨Expr.fresh_of_yields_check left _ _ hleft,
          Expr.fresh_of_yields_check right _ _ hright, (yields_write_iff.mp hwrite).1⟩
      · exact absurd hwrite not_yields_error

theorem Variable.fresh_of_yields_check :
    (v v' : Variable) → (ty : Ty) → (v.check Γ).Yields v' ty → v.Fresh
  | .named _ _ slot, _, _, h => by
      rw [Variable.check] at h
      split at h
      · exact (yields_write_iff.mp h).1
      · exact absurd h not_yields_error
  | .element array index _ slot, _, _, h => by
      obtain ⟨_, _, harray, hrest⟩ := yields_andThen_iff.mp h
      obtain ⟨_, _, hindex, hwrite⟩ := yields_andThen_iff.mp hrest
      split at hwrite
      · exact absurd hwrite not_yields_error
      · split at hwrite
        · exact ⟨Variable.fresh_of_yields_check array _ _ harray,
            Expr.fresh_of_yields_check index _ _ hindex, (yields_write_iff.mp hwrite).1⟩
        · exact absurd hwrite not_yields_error

end

theorem fresh_of_yields_checkCondition {condition condition' : Expr} {cause : String → Cause}
    {position : Position} (h : (checkCondition Γ condition cause position).Yields condition' ()) :
    condition.Fresh := by
  obtain ⟨_, _, hcheck, -⟩ := yields_andThen_iff.mp h
  exact condition.fresh_of_yields_check _ _ hcheck

namespace Stmt

mutual

theorem fresh_of_yields_check : (s s' : Stmt) → (s.check Γ).Yields s' () → s.Fresh
  | .empty _, _, _ => .empty
  | .compound body _, _, h => by
      obtain ⟨_, _, hbody, -, -⟩ := yields_map_iff.mp h
      exact .compound (fresh_of_yields_checkAll body _ hbody)
  | .assign target value _, _, h => by
      obtain ⟨_, _, htarget, hrest⟩ := yields_andThen_iff.mp h
      obtain ⟨_, _, hvalue, -⟩ := yields_andThen_iff.mp hrest
      exact .assign (target.fresh_of_yields_check _ _ htarget)
        (value.fresh_of_yields_check _ _ hvalue)
  | .call _ arguments _, _, h => by
      rw [check] at h
      split at h
      · exact absurd h not_yields_error
      · obtain ⟨_, _, harguments, -⟩ := yields_andThen_iff.mp h
        exact .call (forall_of_yields_visitAll Expr.fresh_of_yields_check harguments)
  | .conditional _ thenBranch elseBranch _, _, h => by
      obtain ⟨_, _, hcondition, hrest⟩ := yields_andThen_iff.mp h
      obtain ⟨_, _, hthen, hrest⟩ := yields_andThen_iff.mp hrest
      obtain ⟨_, _, helse, -, -⟩ := yields_map_iff.mp hrest
      exact .conditional (fresh_of_yields_checkCondition hcondition)
        (fresh_of_yields_check thenBranch _ hthen) (fresh_of_yields_check elseBranch _ helse)
  | .loop _ body _, _, h => by
      obtain ⟨_, _, hcondition, hrest⟩ := yields_andThen_iff.mp h
      obtain ⟨_, _, hbody, -, -⟩ := yields_map_iff.mp hrest
      exact .loop (fresh_of_yields_checkCondition hcondition)
        (fresh_of_yields_check body _ hbody)

theorem fresh_of_yields_checkAll :
    (ss ss' : List Stmt) → (checkAll Γ ss).Yields ss' () → ∀ s ∈ ss, s.Fresh
  | [], _, _ => List.forall_mem_nil _
  | s :: ss, _, h => by
      obtain ⟨_, _, hfirst, hrest⟩ := yields_andThen_iff.mp h
      obtain ⟨_, _, hrest, -, -⟩ := yields_map_iff.mp hrest
      exact List.forall_mem_cons.mpr
        ⟨fresh_of_yields_check s _ hfirst, fresh_of_yields_checkAll ss _ hrest⟩

end

end Stmt

end Bodies

/-- A declaration that is checked to its end has a body without types before. -/
theorem Declaration.freshBody_of_yields_check {table : SymbolTable} (d d' : Declaration)
    (answer : Unit) (h : (d.check table).Yields d' answer) :
    ∀ q, d.procedure? = some q → ∀ s ∈ q.body, s.Fresh := by
  intro q hq
  cases d with
  | type t => cases hq
  | procedure p =>
      obtain rfl := Option.some.inj hq
      obtain ⟨_, _, hcheck, -, -⟩ := yields_map_iff.mp h
      rw [Procedure.check] at hcheck
      split at hcheck
      · exact absurd hcheck not_yields_error
      · exact absurd hcheck not_yields_error
      · obtain ⟨_, _, hbody, -, -⟩ := yields_map_iff.mp hcheck
        exact Stmt.fresh_of_yields_checkAll _ _ hbody

/-- Where both passes finish, no node carried a type before. -/
theorem Program.fresh_of_yields {options : Options} {p built checked : Program} {fresh : Nat}
    {output : Text.Sink} {d : Draft} {table : SymbolTable}
    (hbuild : (p.buildTable options fresh output).Yields (built, d) table)
    (hcheck : (built.check table).Yields checked ()) : p.Fresh := by
  have htypes := freshTypes_of_buildTable hbuild
  obtain ⟨_, _, hvisit, -, -⟩ := yields_map_iff.mp hcheck
  have hbodies := forall_of_yields_visitAll Declaration.freshBody_of_yields_check hvisit
  have herase : built.declarations.map Declaration.eraseTypes =
      p.declarations.map Declaration.eraseTypes :=
    congrArg Program.declarations ((p.leaves_buildTable options fresh output).of_yields hbuild)
  intro d hd
  cases d with
  | type t => exact htypes _ hd
  | procedure q =>
      refine ⟨(htypes _ hd).1, (htypes _ hd).2, ?_⟩
      -- Finding the types of declarations has left the body as it was.
      have hq :
          Declaration.procedure q.eraseTypes ∈ built.declarations.map Declaration.eraseTypes :=
        herase ▸ List.mem_map_of_mem hd
      obtain ⟨d', hd', heq⟩ := List.mem_map.mp hq
      cases d' with
      | type t => cases heq
      | procedure q' =>
          have hsame : q'.eraseTypes = q.eraseTypes := Declaration.procedure.inj heq
          have hbody : q'.body = q.body := (congrArg Procedure.body hsame :)
          exact hbody ▸ hbodies _ hd' q' rfl

end Spl
