import Spl.Proofs.Phases
import Spl.Proofs.Program.Accepted

/-!
Names that are declared for a second time. Before the builder enters the name
of a declaration it goes through what the declaration holds: it resolves the
type expression, it does not let an array be passed by value, and it enters the
parameters and variables of a procedure. So a declaration whose name is taken
is rejected in any case, but only with the complaint that its name is taken if
there is nothing to complain about in what it holds.
-/

namespace Spl

open Outcome

/-! ### Type expressions -/

/-- What there is to complain about if a type expression cannot be resolved: the
name in it means nothing, or something that is not a type. -/
inductive TypeExpr.Refused (Γ : Context) : TypeExpr → Diagnostic → Prop
  | undefined {name : String} {position : Position} {slot : Slot}
      (h : ∀ entry, ¬Γ.Means name entry) :
      Refused Γ (.named name position slot) ⟨.undefinedType name, position⟩
  | notAType {name : String} {position : Position} {slot : Slot} {entry : Entry}
      (h : Γ.Means name entry) (hentry : ∀ ty, entry ≠ .type ty) :
      Refused Γ (.named name position slot) ⟨.notAType name, position⟩
  | array {size : UInt32} {element : TypeExpr} {position : Position} {slot : Slot}
      {complaint : Diagnostic} (h : Refused Γ element complaint) :
      Refused Γ (.array size element position slot) complaint

/-- The type expression stands for an array where it is used: it is one, or it
is the name of one. -/
def TypeExpr.IsArrayIn (Γ : Context) : TypeExpr → Prop
  | named name _ _ => ∃ ty, Γ.NamesType name ty ∧ ty.isArray = true
  | array _ _ _ _ => True

namespace TypeExpr

variable {Γ : Context} {e e' : TypeExpr} {complaint : Diagnostic}

theorem Refused.result_resolve (hΓ : Γ.Valid) (h : e.Refused Γ complaint) (fresh : Nat) :
    (e.resolve Γ fresh).result = .error (.diagnostic complaint) := by
  induction h with
  | undefined hnone =>
      rw [resolve, Context.typeNamed, Context.lookup_of_not_means hΓ hnone]
      rfl
  | @notAType _ _ _ entry hentry hne =>
      rw [resolve, Context.typeNamed, Context.lookup_of_means hΓ hentry]
      cases entry with
      | type ty => exact absurd rfl (hne ty)
      | var _ _ => rfl
      | procedure _ => rfl
  | array _ ih =>
      rw [resolve]
      exact result_andThen_of_error ih _ _

/-- The names in a type expression mean types, or it is refused. -/
theorem means_or_refused (hΓ : Γ.Valid) (e : TypeExpr) :
    (∀ n ∈ e.names, ∃ ty, Γ.NamesType n ty) ∨ ∃ complaint, e.Refused Γ complaint := by
  induction e with
  | named name position slot =>
      obtain ⟨found, -, hmeans⟩ := Context.lookup_of_valid hΓ name
      cases found with
      | none =>
          exact .inr ⟨_, .undefined fun entry h => nomatch (hmeans entry).mpr h⟩
      | some entry =>
          have hentry := (hmeans entry).mp rfl
          cases entry with
          | type ty => exact .inl fun n hn => ⟨ty, List.mem_singleton.mp hn ▸ hentry⟩
          | var _ _ => exact .inr ⟨_, .notAType hentry nofun⟩
          | procedure _ => exact .inr ⟨_, .notAType hentry nofun⟩
  | array size element position slot ih =>
      obtain hnames | ⟨complaint, hrefused⟩ := ih
      · exact .inl hnames
      · exact .inr ⟨complaint, .array hrefused⟩

theorem Refused.cause_eq (h : e.Refused Γ complaint) :
    ∃ name, complaint.cause = .undefinedType name ∨ complaint.cause = .notAType name := by
  induction h with
  | undefined _ => exact ⟨_, .inl rfl⟩
  | notAType _ _ => exact ⟨_, .inr rfl⟩
  | array _ ih => exact ih

theorem Refused.result_resolveIn {d : Draft} {scope : ScopeId}
    (hΓ : Context.Valid ⟨d.table, scope⟩) (h : e.Refused ⟨d.table, scope⟩ complaint) :
    (e.resolveIn scope d).result = .error (.diagnostic complaint) := by
  rw [resolveIn, result_map, h.result_resolve hΓ]
  rfl

theorem exists_yields_of_not_refused {d : Draft} {scope : ScopeId}
    (hΓ : Context.Valid ⟨d.table, scope⟩) (he : e.Fresh)
    (h : ∀ complaint, ¬e.Refused ⟨d.table, scope⟩ complaint) :
    ∃ (e' : TypeExpr) (d' : Draft) (ty : Ty),
      (e.resolveIn scope d).Yields (e', d') ty ∧ d'.table = d.table := by
  obtain hnames | ⟨complaint, hrefused⟩ := means_or_refused hΓ e
  · obtain ⟨e', d', ty, hresolve⟩ := exists_yields_resolveIn hΓ he hnames
    exact ⟨e', d', ty, hresolve, (of_yields_resolveIn hΓ hresolve).1⟩
  · exact absurd hrefused (h complaint)

theorem isArray_iff_of_yields {d d' : Draft} {scope : ScopeId}
    (hΓ : Context.Valid ⟨d.table, scope⟩) {ty : Ty}
    (h : (e.resolveIn scope d).Yields (e', d') ty) :
    ty.isArray = true ↔ e.IsArrayIn ⟨d.table, scope⟩ := by
  obtain ⟨after, found, hresolve, -, rfl⟩ := yields_map_iff.mp h
  cases e with
  | named name position slot =>
      rw [resolve] at hresolve
      split at hresolve
      · next ty hty =>
          obtain ⟨-, -, rfl⟩ := yields_write_iff.mp hresolve
          have hty := (Context.typeNamed_eq_ok_iff hΓ).mp hty
          refine ⟨fun harray => ⟨_, hty, harray⟩, ?_⟩
          rintro ⟨ty', hty', harray⟩
          cases hty.unique hty'
          exact harray
      · exact absurd hresolve not_yields_error
  | array size element position slot =>
      rw [resolve] at hresolve
      obtain ⟨after, elementTy, -, hwrite⟩ := yields_andThen_iff.mp hresolve
      obtain ⟨-, -, rfl⟩ := yields_write_iff.mp hwrite
      exact ⟨fun _ => trivial, fun _ => rfl⟩

end TypeExpr

/-! ### Declarations of the four kinds -/

/-- A declaration of one of the four kinds. Parameters and variables come with
the scope of their procedure. -/
inductive Site
  | type (t : TypeDeclaration)
  | procedure (p : Procedure)
  | parameter (scope : ScopeId) (q : Parameter)
  | var (scope : ScopeId) (v : LocalVariable)

def Declaration.site : Declaration → Site
  | type t => .type t
  | procedure p => .procedure p

namespace Site

def name : Site → String
  | type t => t.name
  | procedure p => p.name
  | parameter _ q => q.name
  | var _ v => v.name

/-- The scope that the name is entered into. -/
def scope : Site → ScopeId
  | type _ => .global
  | procedure _ => .global
  | parameter scope _ => scope
  | var scope _ => scope

/-- The complaint that the name is taken. -/
def redeclared : Site → Diagnostic
  | type t => ⟨.redeclarationAsType t.name, t.position⟩
  | procedure p => ⟨.redeclarationAsProcedure p.name, p.position⟩
  | parameter _ q => ⟨.redeclarationAsParameter q.name, q.position⟩
  | var _ v => ⟨.redeclarationAsVariable v.name, v.position⟩

/-- The scope has an entry of the name already. -/
def Taken (d : Draft) (s : Site) : Prop :=
  ∃ entry, d.table.get s.scope s.name = .ok (some entry)

instance (d : Draft) (s : Site) : Decidable (s.Taken d) :=
  decidable_of_iff ((d.table.get s.scope s.name).toOption.join.isSome = true) <| by
    cases h : d.table.get s.scope s.name with
    | error _ => simp [Taken, h, Except.toOption]
    | ok found => cases found <;> simp [Taken, h, Except.toOption]

def Fresh : Site → Prop
  | type t => t.type.Fresh
  | procedure p => p.Fresh
  | parameter _ q => q.type.Fresh
  | var _ v => v.type.Fresh

/-- How entering the declaration ends. -/
def verdict (d : Draft) : Site → Except Halt Unit
  | type t => (t.declare d).result
  | procedure p => (p.declare d).result.map fun _ => ()
  | parameter scope q => (q.declare scope d).result.map fun _ => ()
  | var scope v => (v.declare scope d).result

/-- What there is to complain about in the type of a declaration: that it is
refused, or that it is an array that a parameter takes by value. -/
inductive Misfit (d : Draft) : Site → Diagnostic → Prop
  | type {t : TypeDeclaration} {complaint : Diagnostic}
      (h : t.type.Refused ⟨d.table, .global⟩ complaint) : Misfit d (.type t) complaint
  | parameter {scope : ScopeId} {q : Parameter} {complaint : Diagnostic}
      (h : q.type.Refused ⟨d.table, .global⟩ complaint) : Misfit d (.parameter scope q) complaint
  | byValue {scope : ScopeId} {q : Parameter}
      (htype : ∀ complaint, ¬q.type.Refused ⟨d.table, .global⟩ complaint)
      (harray : q.type.IsArrayIn ⟨d.table, .global⟩) (hvalue : q.byReference = false) :
      Misfit d (.parameter scope q) ⟨.mustBeAReferenceParameter q.name, q.position⟩
  | var {scope : ScopeId} {v : LocalVariable} {complaint : Diagnostic}
      (h : v.type.Refused ⟨d.table, scope⟩ complaint) : Misfit d (.var scope v) complaint

end Site

/-! ### What the builder comes to -/

namespace Draft

/-- The draft with a scope for the next procedure. -/
def nested (d : Draft) : Draft :=
  { d with table := (d.table.nest .global).1 }

/-- The scope of the next procedure. -/
def nextScope (d : Draft) : ScopeId :=
  (d.table.nest .global).2

end Draft

/-- The builder, on a procedure, comes to a parameter or to a variable: it has
accepted those before it. -/
inductive Procedure.Reaches (p : Procedure) (d : Draft) : Site → Draft → Prop
  | parameter {before after before' : List Parameter} {q : Parameter} {d' : Draft}
      {formals : List Formal} (hsplit : p.parameters = before ++ q :: after)
      (hbefore : Threaded (Parameter.declare d.nextScope) before d.nested before' d' formals) :
      Reaches p d (.parameter d.nextScope q) d'
  | var {parameters : List Parameter} {formals : List Formal} {d' d'' : Draft}
      {before after before' : List LocalVariable} {v : LocalVariable} {units : List Unit}
      (hparameters : Threaded (Parameter.declare d.nextScope) p.parameters d.nested parameters d'
        formals)
      (hsplit : p.locals = before ++ v :: after)
      (hbefore : Threaded (LocalVariable.declare d.nextScope) before d' before' d'' units) :
      Reaches p d (.var d.nextScope v) d''

/-- The builder, on a program, comes to a declaration: it has accepted those
before it. -/
inductive Program.Reaches (options : Options) (p : Program) (fresh : Nat) (output : Text.Sink) :
    Site → Draft → Prop
  | declaration {initial : SymbolTable} {before after before' : List Declaration}
      {declaration : Declaration} {d : Draft} {units : List Unit}
      (hinitial : SymbolTable.initial options.library = .ok initial)
      (hsplit : p.declarations = before ++ declaration :: after)
      (hbefore : Threaded (Declaration.declare options) before ⟨initial, fresh, output⟩ before' d
        units) :
      Reaches options p fresh output declaration.site d
  | inside {q : Procedure} {site : Site} {d d' : Draft}
      (h : Reaches options p fresh output (.procedure q) d) (hinside : q.Reaches d site d') :
      Reaches options p fresh output site d'

/-- What there is to complain about in what a declaration holds, that is, before
its own name is entered: its own type, or the first of the parameters and
variables of a procedure that is not accepted. -/
inductive Site.Refused (d : Draft) : Site → Diagnostic → Prop
  | misfit {site : Site} {complaint : Diagnostic} (h : site.Misfit d complaint) :
      Refused d site complaint
  | inside {p : Procedure} {site : Site} {d' : Draft} {complaint : Diagnostic}
      (hinside : p.Reaches d site d') (h : site.Misfit d' complaint) :
      Refused d (.procedure p) complaint
  | taken {p : Procedure} {site : Site} {d' : Draft} (hinside : p.Reaches d site d')
      (hfits : ∀ complaint, ¬site.Misfit d' complaint) (h : site.Taken d') :
      Refused d (.procedure p) site.redeclared

/-! ### Names are entered last -/

namespace Draft

variable {d : Draft} {id : ScopeId} {name : String} {entry other : Entry} {complaint : Diagnostic}

theorem result_declare_of_taken (h : d.table.get id name = .ok (some other)) :
    (d.declare id name entry complaint).result = .error (.diagnostic complaint) := by
  rw [SymbolTable.get] at h
  cases hs : d.table.scope id with
  | error fault =>
      rw [hs] at h
      cases h
  | ok s =>
      rw [hs] at h
      have hget : s.get? name = some other := Except.ok.inj h
      rw [declare_of_error (SymbolTable.declare_of_taken hs hget)]

theorem taken_of_result_declare (hid : id.index < d.table.size) {halt : Halt}
    (h : (d.declare id name entry complaint).result = .error halt) :
    ∃ other, d.table.get id name = .ok (some other) := by
  obtain ⟨s, hs⟩ := SymbolTable.exists_scope hid
  cases hget : s.get? name with
  | some other => exact ⟨other, by rw [SymbolTable.get, hs, ← hget]; rfl⟩
  | none =>
      rw [declare_of_ok (SymbolTable.declare_of_free hs hget)] at h
      cases h

end Draft

namespace Site

variable {d : Draft} {site : Site} {complaint : Diagnostic}

/-- The scopes in which names are looked up for a declaration are there. -/
structure Valid (d : Draft) (site : Site) : Prop where
  global : Context.Valid ⟨d.table, .global⟩
  scope : Context.Valid ⟨d.table, site.scope⟩

theorem Misfit.verdict_eq (hvalid : site.Valid d) (hfresh : site.Fresh)
    (h : site.Misfit d complaint) : site.verdict d = .error (.diagnostic complaint) := by
  cases h with
  | type hrefused =>
      exact result_andThen_of_error (hrefused.result_resolveIn hvalid.global) _ _
  | var hrefused =>
      exact result_andThen_of_error (hrefused.result_resolveIn hvalid.scope) _ _
  | @parameter scope q _ hrefused =>
      have hresult : (q.declare scope d).result = .error (.diagnostic complaint) :=
        result_andThen_of_error (hrefused.result_resolveIn hvalid.global) _ _
      rw [verdict, hresult]
      rfl
  | @byValue scope q htype harray hvalue =>
      obtain ⟨e, d', ty, hresolve, -⟩ :=
        TypeExpr.exists_yields_of_not_refused hvalid.global hfresh htype
      have hty : ty.isArray = true :=
        (TypeExpr.isArray_iff_of_yields hvalid.global hresolve).mpr harray
      rw [verdict, Parameter.declare, hresolve.andThen_eq]
      dsimp only
      rw [if_pos (by simp [hty, hvalue])]
      rfl

/-- If there is nothing to complain about in the type of a declaration, then
entering the name is all that is left. -/
theorem verdict_eq_of_fits (hvalid : site.Valid d) (hfresh : site.Fresh)
    (hfits : ∀ complaint, ¬site.Misfit d complaint) (hsite : ∀ p, site ≠ .procedure p) :
    ∃ (d' : Draft) (entry : Entry), d'.table = d.table ∧
      site.verdict d = (d'.declare site.scope site.name entry site.redeclared).result := by
  cases site with
  | procedure p => exact absurd rfl (hsite p)
  | type t =>
      obtain ⟨e, d', ty, hresolve, htable⟩ :=
        TypeExpr.exists_yields_of_not_refused hvalid.global hfresh fun _ h => hfits _ (.type h)
      refine ⟨d', .type ty, htable, ?_⟩
      rw [verdict, TypeDeclaration.declare, hresolve.andThen_eq]
      exact congrFun Except.map_id _
  | var scope v =>
      have hΓ : Context.Valid ⟨d.table, scope⟩ := hvalid.scope
      obtain ⟨e, d', ty, hresolve, htable⟩ :=
        TypeExpr.exists_yields_of_not_refused hΓ hfresh fun _ h => hfits _ (.var h)
      refine ⟨d', .var ty false, htable, ?_⟩
      rw [verdict, LocalVariable.declare, hresolve.andThen_eq]
      exact congrFun Except.map_id _
  | parameter scope q =>
      have htype : ∀ complaint, ¬q.type.Refused ⟨d.table, .global⟩ complaint :=
        fun _ h => hfits _ (.parameter h)
      obtain ⟨e, d', ty, hresolve, htable⟩ :=
        TypeExpr.exists_yields_of_not_refused hvalid.global hfresh htype
      have hreference : ¬(ty.isArray && !q.byReference) = true := by
        intro h
        rw [Bool.and_eq_true, Bool.not_eq_true'] at h
        have harray := (TypeExpr.isArray_iff_of_yields hvalid.global hresolve).mp h.1
        exact hfits _ (.byValue htype harray h.2)
      refine ⟨d', .var ty q.byReference, htable, ?_⟩
      rw [verdict, Parameter.declare, hresolve.andThen_eq]
      dsimp only
      rw [if_neg hreference]
      have hforget : ∀ x : Except Halt Unit,
          (x.map fun _ => (⟨ty, q.byReference⟩ : Formal)).map (fun _ => ()) = x := by
        intro x
        cases x <;> rfl
      exact hforget _

/-- A name that is taken is complained about if nothing else is. -/
theorem verdict_of_taken (hvalid : site.Valid d) (hfresh : site.Fresh)
    (hfits : ∀ complaint, ¬site.Misfit d complaint) (hsite : ∀ p, site ≠ .procedure p)
    (htaken : site.Taken d) : site.verdict d = .error (.diagnostic site.redeclared) := by
  obtain ⟨d', entry, htable, hverdict⟩ := verdict_eq_of_fits hvalid hfresh hfits hsite
  obtain ⟨other, hother⟩ := htaken
  rw [hverdict]
  exact Draft.result_declare_of_taken (htable ▸ hother)

/-- A type, a parameter or a variable that is not accepted has a misfit, or its
name is taken. -/
theorem misfit_or_taken (hvalid : site.Valid d) (hfresh : site.Fresh)
    (hsite : ∀ p, site ≠ .procedure p) {halt : Halt} (h : site.verdict d = .error halt) :
    (∃ complaint, site.Misfit d complaint) ∨
      (∀ complaint, ¬site.Misfit d complaint) ∧ site.Taken d := by
  by_cases hmisfit : ∃ complaint, site.Misfit d complaint
  · exact .inl hmisfit
  · have hfits : ∀ complaint, ¬site.Misfit d complaint := not_exists.mp hmisfit
    obtain ⟨d', entry, htable, hverdict⟩ := verdict_eq_of_fits hvalid hfresh hfits hsite
    obtain ⟨other, hother⟩ :=
      Draft.taken_of_result_declare (htable ▸ hvalid.scope.exists_scope) (hverdict ▸ h)
    exact .inr ⟨hfits, other, htable ▸ hother⟩

end Site

/-! ### Inside of procedures -/

section Inside

variable {d d' : Draft} {globals : List Binding} {outer : List (List Binding)} {p : Procedure}
  {site : Site}

theorem Draft.holds_nested (hd : d.table.Holds (globals :: outer)) :
    d.nextScope = ⟨outer.length + 1⟩ ∧ d.nested.table.Holds (globals :: (outer ++ [[]])) :=
  ⟨hd.snd_nest, hd.nest⟩

namespace Procedure

theorem declare_eq (p : Procedure) (d : Draft) :
    p.declare d =
      (threadAll (Parameter.declare d.nextScope) p.parameters d.nested).andThen
        (fun (parameters, d) => ({ p with parameters }, d)) fun (parameters, d') formals =>
      (threadAll (LocalVariable.declare d.nextScope) p.locals d').andThen
        (fun (locals, d) => ({ p with parameters, locals }, d)) fun (locals, d') _ =>
      (d'.declare .global p.name (.procedure ⟨d.nextScope, formals⟩)
          ⟨.redeclarationAsProcedure p.name, p.position⟩).map
        (fun d => ({ p with parameters, locals }, d)) fun _ => d.nextScope :=
  rfl

/-- Procedures do not lie in one another. -/
theorem Reaches.ne_procedure (h : p.Reaches d site d') (q : Procedure) : site ≠ .procedure q := by
  cases h <;> exact nofun

theorem Reaches.fresh (h : p.Reaches d site d') (hfresh : p.Fresh) : site.Fresh := by
  cases h with
  | parameter hsplit _ => exact hfresh.parameters _ (hsplit ▸ List.mem_append_cons_self)
  | var _ hsplit _ => exact hfresh.locals _ (hsplit ▸ List.mem_append_cons_self)

/-- The scope of the procedure is the last one while the builder is inside. -/
theorem Reaches.holds (h : p.Reaches d site d') (hd : d.table.Holds (globals :: outer)) :
    site.scope = ⟨outer.length + 1⟩ ∧
      ∃ bindings, d'.table.Holds (globals :: (outer ++ [bindings])) := by
  obtain ⟨hscope, hnested⟩ := Draft.holds_nested hd
  cases h with
  | parameter hsplit hbefore =>
      rw [hscope] at hbefore
      exact ⟨hscope, _, (of_threaded_parameters hnested hbefore).1⟩
  | var hparameters hsplit hbefore =>
      rw [hscope] at hparameters hbefore
      have hholds := (of_threaded_parameters hnested hparameters).1
      exact ⟨hscope, _, (of_threaded_locals hholds (onlyVariables_parameters _) hbefore).1⟩

theorem Reaches.valid (h : p.Reaches d site d') (hd : d.table.Holds (globals :: outer)) :
    site.Valid d' := by
  obtain ⟨hscope, bindings, hholds⟩ := h.holds hd
  exact ⟨hholds.valid rfl, hscope ▸ hholds.valid getElem?_last_scope⟩

/-- What is not accepted inside of a procedure ends the procedure. -/
theorem Reaches.verdict_eq (h : p.Reaches d site d') {halt : Halt}
    (herror : site.verdict d' = .error halt) :
    (Site.procedure p).verdict d = .error halt := by
  have hresult : (p.declare d).result = .error halt := by
    rw [declare_eq]
    cases h with
    | parameter hsplit hbefore =>
        apply result_andThen_of_error
        rw [hsplit]
        exact result_threadAll_of_error hbefore (eq_error_of_map herror) _
    | var hparameters hsplit hbefore =>
        rw [(yields_threadAll_iff.mpr hparameters).andThen_eq]
        apply result_andThen_of_error
        rw [hsplit]
        exact result_threadAll_of_error hbefore herror _
  rw [Site.verdict, hresult]
  rfl

/-- All parameters and variables of a procedure are accepted, or the builder
comes to one that is not. -/
theorem threaded_or_reaches (p : Procedure) (d : Draft) :
    (∃ parameters d₁ formals locals d₂ units,
        Threaded (Parameter.declare d.nextScope) p.parameters d.nested parameters d₁ formals ∧
        Threaded (LocalVariable.declare d.nextScope) p.locals d₁ locals d₂ units) ∨
      ∃ site d' halt, p.Reaches d site d' ∧ site.verdict d' = .error halt := by
  obtain ⟨parameters, d₁, formals, hparameters⟩ |
      ⟨before, q, after, before', d', formals, halt, hsplit, hbefore, herror⟩ :=
    threaded_or_error (Parameter.declare d.nextScope) p.parameters d.nested
  · obtain ⟨locals, d₂, units, hlocals⟩ |
        ⟨before, v, after, before', d', units, halt, hsplit, hbefore, herror⟩ :=
      threaded_or_error (LocalVariable.declare d.nextScope) p.locals d₁
    · exact .inl ⟨_, d₁, formals, _, d₂, units, hparameters, hlocals⟩
    · exact .inr ⟨_, d', halt, .var hparameters hsplit hbefore, herror⟩
  · refine .inr ⟨_, d', halt, .parameter hsplit hbefore, ?_⟩
    rw [Site.verdict, herror]
    rfl

/-- A procedure in which everything is accepted is complained about if its name
is taken. Its parameters and variables do not change what is declared globally. -/
theorem verdict_of_taken (hd : d.table.Holds (globals :: outer)) (hfresh : p.Fresh)
    (hfits : ∀ complaint, ¬(Site.procedure p).Refused d complaint)
    (htaken : (Site.procedure p).Taken d) :
    (Site.procedure p).verdict d = .error (.diagnostic (Site.procedure p).redeclared) := by
  obtain ⟨parameters, d₁, formals, locals, d₂, units, hparameters, hlocals⟩ |
      ⟨site, d', halt, hreaches, herror⟩ := threaded_or_reaches p d
  · obtain ⟨hscope, hnested⟩ := Draft.holds_nested hd
    have hglobal : ∃ entry, d₂.table.get .global p.name = .ok (some entry) := by
      obtain ⟨entry, hentry⟩ := htaken
      rw [hscope] at hparameters hlocals
      have hholds₁ := (of_threaded_parameters hnested hparameters).1
      have hholds₂ := (of_threaded_locals hholds₁ (onlyVariables_parameters _) hlocals).1
      exact ⟨entry, hholds₂.get_global_iff.mpr (hd.get_global_iff.mp hentry)⟩
    obtain ⟨entry, hentry⟩ := hglobal
    rw [Site.verdict, declare_eq, (yields_threadAll_iff.mpr hparameters).andThen_eq]
    dsimp only
    rw [(yields_threadAll_iff.mpr hlocals).andThen_eq]
    dsimp only
    rw [result_map, Draft.result_declare_of_taken hentry]
    rfl
  · obtain ⟨complaint, hmisfit⟩ | ⟨hmisfit, htaken⟩ :=
      Site.misfit_or_taken (hreaches.valid hd) (hreaches.fresh hfresh) hreaches.ne_procedure herror
    · exact absurd (.inside hreaches hmisfit) (hfits complaint)
    · exact absurd (.taken hreaches hmisfit htaken) (hfits _)

end Procedure

end Inside

/-! ### Programs -/

namespace Site

variable {d : Draft} {site : Site} {complaint : Diagnostic}

/-- The scope of the declaration is one of a table of one level. -/
def Stands (d : Draft) (site : Site) : Prop :=
  ∃ globals outer, d.table.Holds (globals :: outer) ∧ site.scope.index ≤ outer.length

theorem Stands.valid (h : site.Stands d) : site.Valid d := by
  obtain ⟨globals, outer, hd, hle⟩ := h
  have hlt : site.scope.index < (globals :: outer).length := Nat.lt_succ_of_le hle
  exact ⟨hd.valid rfl, hd.valid (List.getElem?_eq_getElem hlt)⟩

/-- What a declaration holds is complained about before its name is. -/
theorem Refused.verdict_eq (h : site.Refused d complaint) (hstands : site.Stands d)
    (hfresh : site.Fresh) : site.verdict d = .error (.diagnostic complaint) := by
  obtain ⟨globals, outer, hd, -⟩ := id hstands
  cases h with
  | misfit h => exact h.verdict_eq hstands.valid hfresh
  | inside hinside h =>
      exact hinside.verdict_eq (h.verdict_eq (hinside.valid hd) (hinside.fresh hfresh))
  | taken hinside hfits h =>
      exact hinside.verdict_eq
        (verdict_of_taken (hinside.valid hd) (hinside.fresh hfresh) hfits hinside.ne_procedure h)

/-- No complaint about what a declaration holds is the one about its name. -/
theorem Refused.ne_redeclared (h : site.Refused d complaint) : complaint ≠ site.redeclared := by
  have hrefused : ∀ {e : TypeExpr} {Γ : Context} {other : Site}, e.Refused Γ complaint →
      complaint ≠ other.redeclared := by
    intro e Γ other h heq
    obtain ⟨name, hcause | hcause⟩ := h.cause_eq <;> cases other <;> rw [heq] at hcause <;>
      cases hcause
  have hmisfit : ∀ {inner other : Site} {d' : Draft}, inner.Misfit d' complaint →
      complaint ≠ other.redeclared := by
    intro inner other d' h
    cases h with
    | type h => exact hrefused h
    | parameter h => exact hrefused h
    | var h => exact hrefused h
    | byValue => cases other <;> exact nofun
  cases h with
  | misfit h => exact hmisfit h
  | inside _ h => exact hmisfit h
  | taken hinside => cases hinside <;> exact nofun

/-- A name that is taken is complained about if nothing that is declared with it
is. -/
theorem verdict_of_stands (hstands : site.Stands d) (hfresh : site.Fresh)
    (htaken : site.Taken d) (hfits : ∀ complaint, ¬site.Refused d complaint) :
    site.verdict d = .error (.diagnostic site.redeclared) := by
  by_cases hsite : ∃ p, site = .procedure p
  · obtain ⟨p, rfl⟩ := hsite
    obtain ⟨globals, outer, hd, -⟩ := hstands
    exact Procedure.verdict_of_taken hd hfresh hfits htaken
  · exact verdict_of_taken hstands.valid hfresh (fun _ h => hfits _ (.misfit h))
      (not_exists.mp hsite) htaken

end Site

namespace Program.Reaches

variable {options : Options} {p : Program} {fresh : Nat} {output : Text.Sink} {site : Site}
  {d : Draft}

theorem stands (h : p.Reaches options fresh output site d) : site.Stands d := by
  induction h with
  | @declaration initial _ _ _ declaration d _ hinitial _ hbefore =>
      obtain ⟨initial', hinitial', hholds⟩ := SymbolTable.exists_initial options.library
      obtain rfl := Except.ok.inj (hinitial.symm.trans hinitial')
      obtain ⟨c, -, hd, -⟩ :=
        entered_of_threaded (d := ⟨initial, fresh, output⟩) hholds hbefore
      have hscope : declaration.site.scope = .global := by
        cases declaration <;> rfl
      exact ⟨c.globals, c.locals, hd, by rw [hscope]; exact Nat.zero_le _⟩
  | inside _ hinside ih =>
      obtain ⟨globals, outer, hd, -⟩ := ih
      obtain ⟨hscope, bindings, hholds⟩ := hinside.holds hd
      exact ⟨globals, outer ++ [bindings], hholds, by simp [hscope]⟩

theorem site_fresh (h : p.Reaches options fresh output site d) (hfresh : p.Fresh) : site.Fresh := by
  induction h with
  | @declaration _ _ _ _ declaration _ _ _ hsplit _ =>
      have hdeclaration := hfresh declaration (hsplit ▸ List.mem_append_cons_self)
      cases declaration with
      | type t => exact hdeclaration
      | procedure q => exact hdeclaration
  | inside _ hinside ih => exact hinside.fresh ih

/-- What the builder does not accept ends the building. -/
theorem result_buildTable (h : p.Reaches options fresh output site d) {halt : Halt}
    (herror : site.verdict d = .error halt) :
    (p.buildTable options fresh output).result = .error halt := by
  induction h with
  | @declaration initial before after _ declaration d _ hinitial hsplit hbefore =>
      have hresult : (declaration.declare options d).result = .error halt := by
        cases declaration with
        | type t =>
            rw [Declaration.declare, result_map, show (t.declare d).result = _ from herror]
            rfl
        | procedure q => exact result_andThen_of_error (eq_error_of_map herror) _ _
      rw [buildTable, hinitial]
      apply result_andThen_of_error
      rw [hsplit]
      exact result_threadAll_of_error hbefore hresult after
  | inside _ hinside ih => exact ih (hinside.verdict_eq herror)

end Program.Reaches

/-- The builder comes to a declaration of a name that its scope has already.
Then building fails. The diagnostic is that the name is redeclared, as what it
is declared here, exactly if there is nothing to complain about in what the
declaration holds. Else it is the complaint about that. -/
theorem buildTable_of_taken {options : Options} {p : Program} (hfresh : p.Fresh) {fresh : Nat}
    {output : Text.Sink} {site : Site} {d : Draft}
    (hreaches : p.Reaches options fresh output site d) (htaken : site.Taken d) :
    ((p.buildTable options fresh output).result = .error (.diagnostic site.redeclared) ↔
        ∀ complaint, ¬site.Refused d complaint) ∧
      ∀ complaint, site.Refused d complaint →
        (p.buildTable options fresh output).result = .error (.diagnostic complaint) := by
  have hsite := hreaches.site_fresh hfresh
  have hrefused : ∀ complaint, site.Refused d complaint →
      (p.buildTable options fresh output).result = .error (.diagnostic complaint) :=
    fun complaint h => hreaches.result_buildTable (h.verdict_eq hreaches.stands hsite)
  refine ⟨⟨fun hresult complaint h => ?_, fun hfits => ?_⟩, hrefused⟩
  · have hsame := (hrefused complaint h).symm.trans hresult
    exact h.ne_redeclared (Halt.diagnostic.inj (Except.error.inj hsame))
  · exact hreaches.result_buildTable (Site.verdict_of_stands hreaches.stands hsite htaken hfits)

/-- The builder comes to the declaration of an index, and the draft that it has
then passes a test. -/
def Program.comesTo (options : Options) (p : Program) (i : Nat) (test : Site → Draft → Bool) :
    Bool :=
  (SymbolTable.initial options.library).toOption.any fun initial =>
    let run := threadAll (Declaration.declare options) (p.declarations.take i)
      ⟨initial, 0, .unlimited⟩
    run.result.toOption.isSome &&
      p.declarations[i]?.any fun declaration => test declaration.site run.after.2

theorem Program.exists_reaches_of_comesTo {options : Options} {p : Program} {i : Nat}
    {test : Site → Draft → Bool} (h : p.comesTo options i test = true) :
    ∃ site d, p.Reaches options 0 .unlimited site d ∧ test site d = true := by
  rw [comesTo] at h
  cases hinitial : SymbolTable.initial options.library with
  | error halt =>
      rw [hinitial] at h
      cases h
  | ok initial =>
      rw [hinitial] at h
      obtain ⟨hrun, htest⟩ := Bool.and_eq_true_iff.mp h
      obtain ⟨declaration, hi, htest⟩ := (Option.any_eq_true _ _).mp htest
      refine ⟨declaration.site, _, ?_, htest⟩
      obtain ⟨hlt, hget⟩ := List.getElem?_eq_some_iff.mp hi
      have hsplit : p.declarations =
          p.declarations.take i ++ declaration :: p.declarations.drop (i + 1) := by
        rw [← hget, ← List.drop_eq_getElem_cons hlt, List.take_append_drop]
      cases hresult : (threadAll (Declaration.declare options) (p.declarations.take i)
          ⟨initial, 0, .unlimited⟩).result with
      | error halt =>
          rw [hresult] at hrun
          cases hrun
      | ok units =>
          exact .declaration hinitial hsplit (yields_threadAll_iff.mp (yields_of_result hresult))

/-- The second declaration of a type is not rejected as one, since the type that
it names is not declared. -/
theorem undefined_type_before_redeclaration : ∃ tokens rest p site d,
    tokenize "type T = int; type T = U; proc main() \x7b \x7d" (some "a.spl") = .ok tokens ∧
    parse "a.spl" tokens = .ok p rest ∧
    p.Reaches .default 0 .unlimited site d ∧ site.Taken d ∧
    site.redeclared = ⟨.redeclarationAsType "T", ⟨14, "a.spl"⟩⟩ ∧
    (p.buildTable .default 0 .unlimited).result =
      .error (.diagnostic ⟨.undefinedType "U", ⟨23, "a.spl"⟩⟩) ∧
    (p.buildTable .default 0 .unlimited).result ≠ .error (.diagnostic site.redeclared) := by
  have hview : (parseSource "type T = int; type T = U; proc main() \x7b \x7d" "a.spl").toOption.map
      (fun p => (p.comesTo .default 1 fun site d => decide (site.Taken d ∧
          site.redeclared = ⟨.redeclarationAsType "T", ⟨14, "a.spl"⟩⟩),
        (p.buildTable .default 0 .unlimited).diagnosed.result.toOption)) =
      some (true, some (some ⟨.undefinedType "U", ⟨23, "a.spl"⟩⟩)) := by
    decide +kernel
  obtain ⟨tokens, rest, p, htokens, hparse, hview⟩ := exists_parse_of_map hview
  obtain ⟨hcomes, hbuild⟩ := Prod.mk.inj hview
  obtain ⟨site, d, hreaches, htest⟩ := Program.exists_reaches_of_comesTo hcomes
  obtain ⟨htaken, hredeclared⟩ := of_decide_eq_true htest
  have hbuild := result_of_diagnosed hbuild
  refine ⟨tokens, rest, p, site, d, htokens, hparse, hreaches, htaken, hredeclared, hbuild, ?_⟩
  rw [hbuild, hredeclared]
  decide

/-- The second declaration of a procedure, with which nothing but its name is
wrong. -/
theorem redeclared_procedure : ∃ tokens rest p site d,
    tokenize "proc f() \x7b \x7d proc f(j: int) \x7b \x7d proc main() \x7b \x7d" (some "a.spl") =
      .ok tokens ∧
    parse "a.spl" tokens = .ok p rest ∧ p.Fresh ∧
    p.Reaches .default 0 .unlimited site d ∧ site.Taken d ∧
    site.redeclared = ⟨.redeclarationAsProcedure "f", ⟨18, "a.spl"⟩⟩ ∧
    (p.buildTable .default 0 .unlimited).result = .error (.diagnostic site.redeclared) ∧
    ∀ complaint, ¬site.Refused d complaint := by
  have hview : (parseSource "proc f() \x7b \x7d proc f(j: int) \x7b \x7d proc main() \x7b \x7d"
      "a.spl").toOption.map
      (fun p => (p.comesTo .default 1 fun site d => decide (site.Taken d ∧
          site.redeclared = ⟨.redeclarationAsProcedure "f", ⟨18, "a.spl"⟩⟩),
        (p.buildTable .default 0 .unlimited).diagnosed.result.toOption)) =
      some (true, some (some ⟨.redeclarationAsProcedure "f", ⟨18, "a.spl"⟩⟩)) := by
    decide +kernel
  obtain ⟨tokens, rest, p, htokens, hparse, hview⟩ := exists_parse_of_map hview
  obtain ⟨hcomes, hbuild⟩ := Prod.mk.inj hview
  obtain ⟨site, d, hreaches, htest⟩ := Program.exists_reaches_of_comesTo hcomes
  obtain ⟨htaken, hredeclared⟩ := of_decide_eq_true htest
  have hbuild := result_of_diagnosed hbuild
  rw [← hredeclared] at hbuild
  have hfresh := Program.fresh_of_parse hparse
  exact ⟨tokens, rest, p, site, d, htokens, hparse, hfresh, hreaches, htaken, hredeclared, hbuild,
    (buildTable_of_taken hfresh hreaches htaken).1.mp hbuild⟩

end Spl
