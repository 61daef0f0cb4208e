import Spl.Program.Table
import Spl.Proofs.Scope.Rendering

/-!
The builder apart from its listings. It does not look at the place that listings
go to: it does the same with any other place, and hands it on as it is. All
scopes that it fills stay in order.
-/

namespace Spl

open Text

variable {α β ν μ : Type}

/-- The outcome with another place for listings. -/
def Outcome.redirect (o : Outcome (ν × Draft) α) (output : Sink) : Outcome (ν × Draft) α :=
  ⟨(o.after.1, { o.after.2 with output }), o.result⟩

theorem Outcome.redirect_eq {o : Outcome (ν × Draft) α} {x : ν} (h : o.after.1 = x)
    (output : Sink) : o.redirect output = ⟨(x, { o.after.2 with output }), o.result⟩ := by
  rw [redirect, h]

/-- What the pass does has nothing to do with the place for listings, and it
keeps scopes in order. -/
structure Silent (visit : Draft → Outcome (ν × Draft) α) : Prop where
  redirect : ∀ d output, visit { d with output } = (visit d).redirect output
  sorted : ∀ d, d.table.Sorted → (visit d).after.2.table.Sorted

namespace Silent

variable {visit : Draft → Outcome (ν × Draft) α}

theorem map (h : Silent visit) {rebuild : ν × Draft → μ × Draft} {value : α → β}
    (hrebuild : ∀ x, ∃ y, ∀ d, rebuild (x, d) = (y, d)) :
    Silent fun d => (visit d).map rebuild value := by
  constructor
  · intro d output
    obtain ⟨y, hy⟩ := hrebuild (visit d).after.1
    simp only [Outcome.map, h.redirect d output, Outcome.redirect, hy]
  · intro d hd
    obtain ⟨y, hy⟩ := hrebuild (visit d).after.1
    have hafter := h.sorted d hd
    rw [Outcome.after_map, ← Prod.mk.eta (p := (visit d).after), hy]
    exact hafter

/-- Silence of a whole from that of its parts. -/
theorem andThen (h : Silent visit) {rebuild : ν × Draft → μ × Draft}
    {next : ν × Draft → α → Outcome (μ × Draft) β}
    (hrebuild : ∀ x, ∃ y, ∀ d, rebuild (x, d) = (y, d))
    (hnext : ∀ x a, Silent fun d => next (x, d) a) :
    Silent fun d => (visit d).andThen rebuild next := by
  constructor
  · intro d output
    rw [h.redirect d output]
    generalize visit d = o
    obtain ⟨⟨x, d'⟩, result⟩ := o
    cases result with
    | ok a => exact (hnext x a).redirect d' output
    | error halt =>
        obtain ⟨y, hy⟩ := hrebuild x
        simp only [Outcome.redirect, Outcome.andThen_error, hy]
  · intro d hd
    have hafter := h.sorted d hd
    generalize visit d = o at hafter ⊢
    obtain ⟨⟨x, d'⟩, result⟩ := o
    cases result with
    | ok a => exact (hnext x a).sorted d' hafter
    | error halt =>
        obtain ⟨y, hy⟩ := hrebuild x
        rw [Outcome.andThen_error, hy]
        exact hafter

theorem threadAll {visit : ν → Draft → Outcome (ν × Draft) α} (h : ∀ x, Silent (visit x))
    (xs : List ν) : Silent (Outcome.threadAll visit xs) := by
  induction xs with
  | nil => exact ⟨fun _ _ => rfl, fun _ hd => hd⟩
  | cons x xs ih =>
      refine (h x).andThen (fun _ => ⟨_, fun _ => rfl⟩) fun y a => ?_
      exact ih.map fun _ => ⟨_, fun _ => rfl⟩

/-- A pass that starts with a new scope. -/
theorem nest {visit : ScopeId → Draft → Outcome (ν × Draft) α} (h : ∀ scope, Silent (visit scope)) :
    Silent fun d => visit (d.table.nest .global).2 { d with table := (d.table.nest .global).1 } :=
  ⟨fun d output => (h _).redirect { d with table := (d.table.nest .global).1 } output,
    fun d hd => (h _).sorted { d with table := (d.table.nest .global).1 } (hd.nest .global)⟩

end Silent

/-! ### The builder is silent -/

theorem TypeExpr.silent_resolveIn (scope : ScopeId) (e : TypeExpr) :
    Silent (e.resolveIn scope) :=
  ⟨fun _ _ => rfl, fun _ hd => hd⟩

theorem Draft.silent_declare (scope : ScopeId) (name : String) (entry : Entry)
    (complaint : Diagnostic) (x : ν) (value : Unit → β) :
    Silent fun d => (d.declare scope name entry complaint).map (fun d => (x, d)) value := by
  constructor
  · intro d output
    rfl
  · intro d hd
    cases htable : d.table.declare scope name entry complaint with
    | ok table =>
        rw [declare_of_ok htable]
        exact hd.declare htable
    | error halt =>
        rw [declare_of_error htable]
        exact hd

theorem TypeDeclaration.silent_declare (t : TypeDeclaration) : Silent t.declare :=
  (t.type.silent_resolveIn .global).andThen (fun _ => ⟨_, fun _ => rfl⟩) fun _ _ =>
    Draft.silent_declare ..

theorem Parameter.silent_declare (scope : ScopeId) (p : Parameter) :
    Silent (p.declare scope) := by
  refine (p.type.silent_resolveIn .global).andThen (fun _ => ⟨_, fun _ => rfl⟩) fun type ty => ?_
  dsimp only
  split
  · exact ⟨fun _ _ => rfl, fun _ hd => hd⟩
  · exact Draft.silent_declare ..

theorem LocalVariable.silent_declare (scope : ScopeId) (v : LocalVariable) :
    Silent (v.declare scope) :=
  (v.type.silent_resolveIn scope).andThen (fun _ => ⟨_, fun _ => rfl⟩) fun _ _ =>
    Draft.silent_declare ..

theorem Procedure.silent_declare (p : Procedure) : Silent p.declare := by
  have hinside (scope : ScopeId) : Silent fun d =>
      (Outcome.threadAll (Parameter.declare scope) p.parameters d).andThen
        (fun x => ({ p with parameters := x.1 }, x.2)) fun x formals =>
      (Outcome.threadAll (LocalVariable.declare scope) p.locals x.2).andThen
        (fun y => ({ p with parameters := x.1, locals := y.1 }, y.2)) fun y _ =>
      (y.2.declare .global p.name (.procedure ⟨scope, formals⟩)
          ⟨.redeclarationAsProcedure p.name, p.position⟩).map
        (fun d => ({ p with parameters := x.1, locals := y.1 }, d)) fun _ => scope := by
    refine (Silent.threadAll (Parameter.silent_declare scope) p.parameters).andThen
      (fun parameters => ⟨{ p with parameters }, fun _ => rfl⟩) fun parameters formals => ?_
    dsimp only
    refine (Silent.threadAll (LocalVariable.silent_declare scope) p.locals).andThen
      (fun locals => ⟨{ p with parameters, locals }, fun _ => rfl⟩) fun _ _ => ?_
    dsimp only
    exact Draft.silent_declare ..
  exact Silent.nest hinside

/-- Without listings, declarations are entered silently. -/
theorem Declaration.silent_declare {options : Options} (hoptions : options.listsTables = false)
    (declaration : Declaration) : Silent (declaration.declare options) := by
  cases declaration with
  | type t =>
      unfold declare
      exact t.silent_declare.map fun _ => ⟨_, fun _ => rfl⟩
  | procedure p =>
      unfold declare
      refine p.silent_declare.andThen (fun _ => ⟨_, fun _ => rfl⟩) fun p scope => ?_
      rw [hoptions]
      exact ⟨fun _ _ => rfl, fun _ hd => hd⟩

end Spl
