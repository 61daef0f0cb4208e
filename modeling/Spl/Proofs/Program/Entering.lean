import Spl.Program.Table
import Spl.Proofs.Scope.Library
import Spl.Proofs.TypeExpr.Resolved

/-!
Entering declarations. A declaration that was entered says itself what it has
put into the table, since its type expressions carry their types. So what the
builder does is a relation between the contents of a table before and after,
with one rule for each kind of declaration; and a finished run of the builder
is a row of such steps.
-/

namespace Spl

open Outcome

/-! ### What declarations bind -/

theorem Program.mem_procedures_iff {p : Program} {q : Procedure} :
    q ∈ p.procedures ↔ .procedure q ∈ p.declarations := by
  rw [procedures, List.mem_filterMap]
  constructor
  · rintro ⟨d, hd, hq⟩
    cases d with
    | type t => cases hq
    | procedure q' =>
        obtain rfl := Option.some.inj hq
        exact hd
  · exact fun h => ⟨_, h, rfl⟩

def Parameter.formal (p : Parameter) : Formal :=
  ⟨p.type.found, p.byReference⟩

def Parameter.binding (p : Parameter) : Binding :=
  (p.name, .var p.type.found p.byReference)

def LocalVariable.binding (v : LocalVariable) : Binding :=
  (v.name, .var v.type.found false)

@[simp] theorem Parameter.fst_comp_binding : Prod.fst ∘ Parameter.binding = Parameter.name := rfl

@[simp] theorem LocalVariable.fst_comp_binding :
    Prod.fst ∘ LocalVariable.binding = LocalVariable.name := rfl

namespace Procedure

/-- The names of the parameters and then those of the variables. -/
def localNames (p : Procedure) : List String :=
  p.parameters.map Parameter.name ++ p.locals.map LocalVariable.name

/-- What the procedure expects of its arguments. -/
def formals (p : Procedure) : List Formal :=
  p.parameters.map Parameter.formal

/-- What the scope of the procedure binds. -/
def bindings (p : Procedure) : List Binding :=
  p.parameters.map Parameter.binding ++ p.locals.map LocalVariable.binding

/-- The parameters and variables of the procedure carry their types. The type
of a variable does not mention a parameter or a variable before it. -/
structure Declared (means : String → Ty → Prop) (p : Procedure) : Prop where
  parameters : ∀ q ∈ p.parameters, q.type.Resolved means q.type.found ∧
    (q.type.found.isArray = true → q.byReference = true)
  locals : ∀ before v after, p.locals = before ++ v :: after →
    v.type.Resolved (fun name ty => means name ty ∧
      name ∉ p.parameters.map Parameter.name ++ before.map LocalVariable.name) v.type.found
  nodup : p.localNames.Nodup

theorem Declared.mono {means means' : String → Ty → Prop} {p : Procedure} (h : p.Declared means)
    (hmeans : ∀ name ty, means name ty → means' name ty) : p.Declared means' := by
  refine ⟨fun q hq => ?_, fun before v after hsplit => ?_, h.nodup⟩
  · obtain ⟨hresolved, hreference⟩ := h.parameters q hq
    exact ⟨hresolved.mono hmeans, hreference⟩
  · exact (h.locals before v after hsplit).mono fun name ty hty => ⟨hmeans name ty hty.1, hty.2⟩

end Procedure

/-! ### Steps and runs -/

/-- What entering a declaration does to the contents of a table. -/
inductive Enters (c : Contents) : Declaration → Contents → Prop
  | type {t : TypeDeclaration} (htype : t.type.Resolved c.NamesType t.type.found)
      (hfree : t.name ∉ c.names) : Enters c (.type t) (c.addType t.name t.type.found)
  | procedure {p : Procedure} (hdeclared : p.Declared c.NamesType) (hfree : p.name ∉ c.names) :
      Enters c (.procedure p) (c.addProcedure p.name p.formals p.bindings)

/-- What entering declarations one after the other does to the contents. -/
inductive Entered : Contents → List Declaration → Contents → Prop
  | nil {c : Contents} : Entered c [] c
  | cons {c c' c'' : Contents} {d : Declaration} {ds : List Declaration} (h : Enters c d c')
      (hs : Entered c' ds c'') : Entered c (d :: ds) c''

theorem Entered.split {c c'' : Contents} {before after : List Declaration}
    (h : Entered c (before ++ after) c'') :
    ∃ c', Entered c before c' ∧ Entered c' after c'' := by
  induction before generalizing c with
  | nil => exact ⟨c, .nil, h⟩
  | cons d before ih =>
      cases h with
      | cons hfirst hrest =>
          obtain ⟨c', hbefore, hafter⟩ := ih hrest
          exact ⟨c', .cons hfirst hbefore, hafter⟩

theorem Entered.snoc {c c' c'' : Contents} {ds : List Declaration} {d : Declaration}
    (h : Entered c ds c') (hd : Enters c' d c'') : Entered c (ds ++ [d]) c'' := by
  induction h with
  | nil => exact .cons hd .nil
  | cons h _ ih => exact .cons h (ih hd)

theorem Enters.names_eq {c c' : Contents} {d : Declaration} (h : Enters c d c') :
    c'.names = c.names ++ [d.name] := by
  cases h with
  | type => simp [Declaration.name]
  | procedure => simp [Declaration.name]

theorem Entered.names_eq {c c' : Contents} {ds : List Declaration} (h : Entered c ds c') :
    c'.names = c.names ++ ds.map Declaration.name := by
  induction h with
  | nil => simp
  | cons h _ ih => simp [ih, h.names_eq]

theorem Enters.mem_globals {c c' : Contents} {d : Declaration} (h : Enters c d c') {b : Binding}
    (hb : b ∈ c.globals) : b ∈ c'.globals := by
  cases h with
  | type => exact List.mem_append_left _ hb
  | procedure => exact List.mem_append_left _ hb

/-- Names keep their meaning while more are entered. -/
theorem Entered.mem_globals {c c' : Contents} {ds : List Declaration} (h : Entered c ds c')
    {b : Binding} (hb : b ∈ c.globals) : b ∈ c'.globals := by
  induction h with
  | nil => exact hb
  | cons h _ ih => exact ih (h.mem_globals hb)

/-- Scopes keep their places while more are made. -/
theorem Entered.locals_eq {c c' : Contents} {ds : List Declaration} (h : Entered c ds c') :
    c'.locals = c.locals ++ (ds.filterMap Declaration.procedure?).map Procedure.bindings := by
  induction h with
  | nil => simp
  | cons h _ ih =>
      cases h with
      | type => simpa [List.filterMap_cons, Declaration.procedure?] using ih
      | procedure => simpa [List.filterMap_cons, Declaration.procedure?] using ih

/-- A procedure that was entered is bound to its own signature, with a scope
that binds what it declares. -/
theorem Entered.exists_procedure {c c' : Contents} {ds : List Declaration} (h : Entered c ds c')
    {p : Procedure} (hp : .procedure p ∈ ds) :
    ∃ i, (p.name, .procedure ⟨⟨i + 1⟩, p.formals⟩) ∈ c'.globals ∧
      c'.locals[i]? = some p.bindings ∧ p.Declared c'.NamesType := by
  obtain ⟨before, after, rfl⟩ := List.append_of_mem hp
  obtain ⟨c₁, -, hrest⟩ := h.split
  cases hrest with
  | @cons _ c₂ _ _ _ hstep hafter =>
      have hkept : ∀ b ∈ c₁.globals, b ∈ c₂.globals := fun _ => hstep.mem_globals
      cases hstep with
      | procedure hdeclared =>
          refine ⟨c₁.locals.length, hafter.mem_globals ?_, ?_, ?_⟩
          · exact List.mem_append_right _ List.mem_cons_self
          · rw [hafter.locals_eq]
            simp
          · exact hdeclared.mono fun _ _ hty => hafter.mem_globals (hkept _ hty)

/-- A type that was entered is bound to what was found for its expression. -/
theorem Entered.mem_type {c c' : Contents} {ds : List Declaration} (h : Entered c ds c')
    {t : TypeDeclaration} (ht : .type t ∈ ds) :
    c'.NamesType t.name t.type.found ∧ t.type.Resolved c'.NamesType t.type.found := by
  obtain ⟨before, after, rfl⟩ := List.append_of_mem ht
  obtain ⟨c₁, -, hrest⟩ := h.split
  cases hrest with
  | @cons _ c₂ _ _ _ hstep hafter =>
      have hkept : ∀ b ∈ c₁.globals, b ∈ c₂.globals := fun _ => hstep.mem_globals
      cases hstep with
      | type htype =>
          refine ⟨hafter.mem_globals ?_, ?_⟩
          · exact List.mem_append_right _ List.mem_cons_self
          · exact htype.mono fun _ _ hty => hafter.mem_globals (hkept _ hty)

/-- Every procedure is an old one or was declared. -/
theorem Entered.of_mem_globals {c c' : Contents} {ds : List Declaration} (h : Entered c ds c')
    {name : String} {signature : Signature} (hb : (name, .procedure signature) ∈ c'.globals) :
    (name, .procedure signature) ∈ c.globals ∨
      ∃ p, .procedure p ∈ ds ∧ p.name = name ∧ signature.formals = p.formals := by
  induction h with
  | nil => exact .inl hb
  | cons h _ ih =>
      cases ih hb with
      | inr hlater =>
          obtain ⟨p, hp, hname⟩ := hlater
          exact .inr ⟨p, List.mem_cons_of_mem _ hp, hname⟩
      | inl hbefore =>
          cases h with
          | type => exact .inl (by simpa [Contents.addType] using hbefore)
          | @procedure p =>
              rw [Contents.addProcedure, List.mem_append, List.mem_singleton] at hbefore
              cases hbefore with
              | inl hold => exact .inl hold
              | inr hnew =>
                  cases hnew
                  exact .inr ⟨p, List.mem_cons_self, rfl, rfl⟩

/-! ### The builder enters -/

/-- The identities of the array types that type expressions make. -/
def identitiesOf (es : List TypeExpr) : List Nat :=
  es.flatMap TypeExpr.identities

@[simp] theorem identitiesOf_append (es es' : List TypeExpr) :
    identitiesOf (es ++ es') = identitiesOf es ++ identitiesOf es' :=
  List.flatMap_append

namespace Draft

variable {d d' : Draft} {scopes : List (List Binding)} {bindings : List Binding} {id : ScopeId}
  {name : String} {entry : Entry} {complaint : Diagnostic}

theorem of_yields_declare (hd : d.table.Holds scopes) (hid : scopes[id.index]? = some bindings)
    (h : (d.declare id name entry complaint).Yields d' ()) :
    name ∉ bindings.map Prod.fst ∧ d'.fresh = d.fresh ∧
      d'.table.Holds (scopes.set id.index (bindings ++ [(name, entry)])) := by
  cases htable : d.table.declare id name entry complaint with
  | ok table =>
      obtain ⟨hfree, hholds⟩ := hd.declare hid htable
      rw [declare_of_ok htable] at h
      obtain ⟨rfl, -⟩ := yields_ok_iff.mp h
      exact ⟨hfree, rfl, hholds⟩
  | error halt =>
      rw [declare_of_error htable] at h
      exact absurd h not_yields_error

theorem exists_yields_declare (hd : d.table.Holds scopes) (id : ScopeId)
    (hid : scopes[id.index]? = some bindings) (hfree : name ∉ bindings.map Prod.fst)
    (entry : Entry) (complaint : Diagnostic) :
    ∃ d', (d.declare id name entry complaint).Yields d' () := by
  obtain ⟨table, htable⟩ := hd.exists_declare hid hfree entry complaint
  exact ⟨_, declare_of_ok htable⟩

end Draft

theorem TypeExpr.of_yields_resolveIn {d d' : Draft} {scope : ScopeId}
    (hΓ : Context.Valid ⟨d.table, scope⟩) {e e' : TypeExpr} {ty : Ty}
    (h : (e.resolveIn scope d).Yields (e', d') ty) :
    d'.table = d.table ∧ e'.Resolved (Context.NamesType ⟨d.table, scope⟩) ty ∧
      Numbered d.fresh d'.fresh e'.identities := by
  obtain ⟨⟨resolved, fresh⟩, found, hresolve, hnode, rfl⟩ := yields_map_iff.mp h
  cases hnode
  obtain ⟨hresolved, hnumbered⟩ := TypeExpr.of_yields_resolve hΓ hresolve
  exact ⟨rfl, hresolved, hnumbered⟩

section Local

variable {globals bindings : List Binding} {outer : List (List Binding)} {d d' : Draft}

theorem getElem?_last_scope :
    (globals :: (outer ++ [bindings]))[outer.length + 1]? = some bindings := by
  simp

theorem set_last_scope (bindings' : List Binding) :
    (globals :: (outer ++ [bindings])).set (outer.length + 1) bindings' =
      globals :: (outer ++ [bindings']) := by
  simp

/-- A parameter that was entered, with what it has added to its scope. -/
theorem Parameter.of_yields_declare (hd : d.table.Holds (globals :: (outer ++ [bindings])))
    {p p' : Parameter} {formal : Formal}
    (h : (p.declare ⟨outer.length + 1⟩ d).Yields (p', d') formal) :
    d'.table.Holds (globals :: (outer ++ [bindings ++ [p'.binding]])) ∧ formal = p'.formal ∧
      p'.type.Resolved (fun name ty => (name, .type ty) ∈ globals) p'.type.found ∧
      (p'.type.found.isArray = true → p'.byReference = true) ∧
      Numbered d.fresh d'.fresh p'.type.identities := by
  rw [Parameter.declare] at h
  obtain ⟨⟨type, d₁⟩, ty, hresolve, hrest⟩ := yields_andThen_iff.mp h
  obtain ⟨htable, hresolved, hnumbered⟩ := TypeExpr.of_yields_resolveIn (hd.valid rfl) hresolve
  dsimp only at hrest
  split at hrest
  · exact absurd hrest not_yields_error
  · next hreference =>
      obtain ⟨d₂, ⟨⟩, hdeclare, hnode, hformal⟩ := yields_map_iff.mp hrest
      cases hnode
      obtain ⟨-, hfresh, hholds⟩ :=
        Draft.of_yields_declare (htable ▸ hd) getElem?_last_scope hdeclare
      rw [set_last_scope] at hholds
      have hfound : type.found = ty := hresolved.found_eq
      have hglobal : type.Resolved (fun name ty => (name, .type ty) ∈ globals) ty :=
        hresolved.mono fun _ _ => hd.nearest_global_iff.mp
      refine ⟨?_, ?_, ?_, ?_, ?_⟩
      · simpa [binding, hfound] using hholds
      · rw [← hformal, Parameter.formal, hfound]
      · rwa [hfound]
      · rw [hfound]
        simpa using hreference
      · exact hfresh ▸ hnumbered

theorem of_threaded_parameters (hd : d.table.Holds (globals :: (outer ++ [bindings])))
    {ps ps' : List Parameter} {formals : List Formal}
    (h : Threaded (Parameter.declare ⟨outer.length + 1⟩) ps d ps' d' formals) :
    d'.table.Holds (globals :: (outer ++ [bindings ++ ps'.map Parameter.binding])) ∧
      formals = ps'.map Parameter.formal ∧
      (∀ p ∈ ps', p.type.Resolved (fun name ty => (name, .type ty) ∈ globals) p.type.found ∧
        (p.type.found.isArray = true → p.byReference = true)) ∧
      Numbered d.fresh d'.fresh (identitiesOf (ps'.map Parameter.type)) := by
  induction h generalizing bindings with
  | nil => exact ⟨by simpa using hd, rfl, by simp, .nil⟩
  | cons h _ ih =>
      obtain ⟨hfirst, rfl, hresolved, hreference, hnumbered⟩ := Parameter.of_yields_declare hd h
      obtain ⟨hrest, rfl, hall, hnumbers⟩ := ih hfirst
      refine ⟨by simpa using hrest, rfl, ?_, hnumbered.append hnumbers⟩
      exact List.forall_mem_cons.mpr ⟨⟨hresolved, hreference⟩, hall⟩

/-- No name stands for a type among parameters and variables. -/
def OnlyVariables (bindings : List Binding) : Prop :=
  ∀ b ∈ bindings, ∃ ty byReference, b.2 = .var ty byReference

theorem onlyVariables_append {bindings bindings' : List Binding} :
    OnlyVariables (bindings ++ bindings') ↔ OnlyVariables bindings ∧ OnlyVariables bindings' :=
  List.forall_mem_append

theorem onlyVariables_parameters (ps : List Parameter) :
    OnlyVariables (ps.map Parameter.binding) := by
  intro b hb
  obtain ⟨p, -, rfl⟩ := List.mem_map.mp hb
  exact ⟨_, _, rfl⟩

theorem onlyVariables_locals (vs : List LocalVariable) :
    OnlyVariables (vs.map LocalVariable.binding) := by
  intro b hb
  obtain ⟨v, -, rfl⟩ := List.mem_map.mp hb
  exact ⟨_, _, rfl⟩

/-- Among parameters and variables, a name means a type only if it does so
globally and is not the name of one of them. -/
theorem namesType_local_iff (hd : d.table.Holds (globals :: (outer ++ [bindings])))
    (hvariables : OnlyVariables bindings) {name : String} {ty : Ty} :
    Context.NamesType ⟨d.table, ⟨outer.length + 1⟩⟩ name ty ↔
      (name, .type ty) ∈ globals ∧ name ∉ bindings.map Prod.fst := by
  have hlast : (outer ++ [bindings])[outer.length]? = some bindings := by simp
  have hnot : (name, Entry.type ty) ∉ bindings := by
    intro hmem
    obtain ⟨_, _, hvar⟩ := hvariables _ hmem
    cases hvar
  rw [Context.NamesType, Context.Means, hd.nearest_iff hlast]
  simp [hnot, and_comm]

theorem LocalVariable.of_yields_declare
    (hd : d.table.Holds (globals :: (outer ++ [bindings]))) (hvariables : OnlyVariables bindings)
    {v v' : LocalVariable} (h : (v.declare ⟨outer.length + 1⟩ d).Yields (v', d') ()) :
    d'.table.Holds (globals :: (outer ++ [bindings ++ [v'.binding]])) ∧
      v'.type.Resolved (fun name ty => (name, .type ty) ∈ globals ∧
        name ∉ bindings.map Prod.fst) v'.type.found ∧
      Numbered d.fresh d'.fresh v'.type.identities := by
  rw [LocalVariable.declare] at h
  obtain ⟨⟨type, d₁⟩, ty, hresolve, hrest⟩ := yields_andThen_iff.mp h
  obtain ⟨htable, hresolved, hnumbered⟩ :=
    TypeExpr.of_yields_resolveIn (hd.valid getElem?_last_scope) hresolve
  obtain ⟨d₂, ⟨⟩, hdeclare, hnode, -⟩ := yields_map_iff.mp hrest
  cases hnode
  obtain ⟨-, hfresh, hholds⟩ :=
    Draft.of_yields_declare (htable ▸ hd) getElem?_last_scope hdeclare
  rw [set_last_scope] at hholds
  have hfound : type.found = ty := hresolved.found_eq
  refine ⟨?_, ?_, ?_⟩
  · simpa [binding, hfound] using hholds
  · rw [hfound]
    exact hresolved.mono fun _ _ => (namesType_local_iff hd hvariables).mp
  · exact hfresh ▸ hnumbered

theorem of_threaded_locals (hd : d.table.Holds (globals :: (outer ++ [bindings])))
    (hvariables : OnlyVariables bindings) {vs vs' : List LocalVariable} {units : List Unit}
    (h : Threaded (LocalVariable.declare ⟨outer.length + 1⟩) vs d vs' d' units) :
    d'.table.Holds (globals :: (outer ++ [bindings ++ vs'.map LocalVariable.binding])) ∧
      (∀ before v after, vs' = before ++ v :: after →
        v.type.Resolved (fun name ty => (name, .type ty) ∈ globals ∧
          name ∉ bindings.map Prod.fst ++ before.map LocalVariable.name) v.type.found) ∧
      Numbered d.fresh d'.fresh (identitiesOf (vs'.map LocalVariable.type)) := by
  induction h generalizing bindings with
  | nil => exact ⟨by simpa using hd, by simp, .nil⟩
  | @cons _ v' _ _ _ _ _ vs' _ h _ ih =>
      obtain ⟨hfirst, hresolved, hnumbered⟩ := LocalVariable.of_yields_declare hd hvariables h
      have hvariables' : OnlyVariables (bindings ++ [v'.binding]) :=
        onlyVariables_append.mpr ⟨hvariables, onlyVariables_locals [v']⟩
      obtain ⟨hrest, hall, hnumbers⟩ := ih hfirst hvariables'
      refine ⟨by simpa using hrest, ?_, hnumbered.append hnumbers⟩
      intro before v rest hsplit
      cases before with
      | nil =>
          obtain ⟨rfl, rfl⟩ := List.cons.inj hsplit
          simpa using hresolved
      | cons first before =>
          obtain ⟨rfl, htail⟩ := List.cons.inj hsplit
          simpa [LocalVariable.binding] using hall before v rest htail

end Local

/-- The type expressions of a declaration, in the order in which they are
resolved. -/
def Declaration.typeExprs : Declaration → List TypeExpr
  | type t => [t.type]
  | procedure p => p.parameters.map Parameter.type ++ p.locals.map LocalVariable.type

theorem Declaration.typeExprs_eraseBody (d : Declaration) :
    d.eraseBody.typeExprs = d.typeExprs := by
  cases d <;> rfl

theorem map_fst_bindings (p : Procedure) : p.bindings.map Prod.fst = p.localNames := by
  simp [Procedure.bindings, Procedure.localNames]

theorem Enters.resolved {c c' : Contents} {d : Declaration} (h : Enters c d c') :
    ∀ e ∈ d.typeExprs, e.Resolved c.NamesType e.found := by
  cases h with
  | type htype => exact List.forall_mem_singleton.mpr htype
  | procedure hdeclared =>
      refine List.forall_mem_append.mpr ⟨?_, ?_⟩
      · intro e he
        obtain ⟨q, hq, rfl⟩ := List.mem_map.mp he
        exact (hdeclared.parameters q hq).1
      · intro e he
        obtain ⟨v, hv, rfl⟩ := List.mem_map.mp he
        obtain ⟨before, after, hsplit⟩ := List.append_of_mem hv
        exact (hdeclared.locals before v after hsplit).mono fun _ _ hty => hty.1

theorem Declaration.resolved_of_entered {c c' : Contents} {ds : List Declaration}
    (h : Entered c ds c') {d : Declaration} (hd : d ∈ ds) :
    ∀ e ∈ d.typeExprs, e.Resolved c'.NamesType e.found := by
  obtain ⟨before, after, rfl⟩ := List.append_of_mem hd
  obtain ⟨c₁, -, hrest⟩ := h.split
  cases hrest with
  | cons hstep hafter =>
      exact fun e he => (hstep.resolved e he).mono fun _ _ hty =>
        hafter.mem_globals (hstep.mem_globals hty)

/-- A procedure that was entered: the table has one more scope, and the
procedure itself is bound globally. -/
theorem Procedure.of_yields_declare {d d' : Draft} {c : Contents} (hd : d.table.Holds c.scopes)
    {p p' : Procedure} {scope : ScopeId} (h : (p.declare d).Yields (p', d') scope) :
    p'.Declared c.NamesType ∧ p'.name ∉ c.names ∧
      d'.table.Holds (c.addProcedure p'.name p'.formals p'.bindings).scopes ∧
      scope = ⟨c.locals.length + 1⟩ ∧
      Numbered d.fresh d'.fresh (identitiesOf (Declaration.procedure p').typeExprs) := by
  have hnest : (d.table.nest .global).1.Holds (c.globals :: (c.locals ++ [[]])) := hd.nest
  have hscope : (d.table.nest .global).2 = ⟨c.locals.length + 1⟩ := hd.snd_nest
  rw [Procedure.declare] at h
  generalize d.table.nest .global = nested at h hnest hscope
  obtain ⟨table, scope'⟩ := nested
  obtain rfl : scope' = ⟨c.locals.length + 1⟩ := hscope
  obtain ⟨⟨parameters, d₁⟩, formals, hparameters, hrest⟩ := yields_andThen_iff.mp h
  obtain ⟨⟨locals, d₂⟩, units, hlocals, hrest⟩ := yields_andThen_iff.mp hrest
  obtain ⟨d₃, ⟨⟩, hdeclare, hnode, rfl⟩ := yields_map_iff.mp hrest
  cases hnode
  obtain ⟨hholds₁, rfl, hall₁, hnumbered₁⟩ :=
    of_threaded_parameters hnest (yields_threadAll_iff.mp hparameters)
  obtain ⟨hholds₂, hall₂, hnumbered₂⟩ :=
    of_threaded_locals hholds₁ (onlyVariables_parameters _) (yields_threadAll_iff.mp hlocals)
  obtain ⟨hfree, hfresh, hholds₃⟩ := Draft.of_yields_declare hholds₂ rfl hdeclare
  have hnames : ([] ++ parameters.map Parameter.binding).map Prod.fst =
      parameters.map Parameter.name := by simp
  refine ⟨⟨hall₁, ?_, ?_⟩, hfree, ?_, rfl, ?_⟩
  · rw [hnames] at hall₂
    exact hall₂
  · obtain ⟨s, -, -, hbinds⟩ := hholds₂.scope _ _ getElem?_last_scope
    simpa [localNames] using hbinds.nodup
  · simpa [Contents.scopes, Contents.addProcedure, ScopeId.global, bindings, Procedure.formals]
      using hholds₃
  · rw [hfresh, Declaration.typeExprs, identitiesOf_append]
    exact hnumbered₁.append hnumbered₂

theorem Draft.of_yields_list {d d' : Draft} {p : Procedure} {scope : ScopeId}
    (h : (d.list p scope).Yields d' ()) : d'.table = d.table ∧ d'.fresh = d.fresh := by
  rw [list] at h
  split at h
  · exact absurd h not_yields_error
  · have hafter := h.after_eq
    subst hafter
    exact ⟨rfl, rfl⟩

/-- What the builder enters is entered. -/
theorem Declaration.of_yields_declare {options : Options} {d d' : Draft} {c : Contents}
    (hd : d.table.Holds c.scopes) {declaration declaration' : Declaration}
    (h : (declaration.declare options d).Yields (declaration', d') ()) :
    ∃ c', Enters c declaration' c' ∧ d'.table.Holds c'.scopes ∧
      Numbered d.fresh d'.fresh (identitiesOf declaration'.typeExprs) := by
  cases declaration with
  | type t =>
      rw [declare] at h
      obtain ⟨⟨t', d₁⟩, ⟨⟩, hdeclare, hnode, -⟩ := yields_map_iff.mp h
      cases hnode
      rw [TypeDeclaration.declare] at hdeclare
      obtain ⟨⟨e, d₂⟩, ty, hresolve, hrest⟩ := yields_andThen_iff.mp hdeclare
      obtain ⟨d₃, ⟨⟩, henter, hnode, -⟩ := yields_map_iff.mp hrest
      cases hnode
      obtain ⟨htable, hresolved, hnumbered⟩ := TypeExpr.of_yields_resolveIn (hd.valid rfl) hresolve
      obtain ⟨hfree, hfresh, hholds⟩ := Draft.of_yields_declare (htable ▸ hd) rfl henter
      have hfound : e.found = ty := hresolved.found_eq
      subst hfound
      refine ⟨_, .type ?_ hfree, hholds, ?_⟩
      · exact hresolved.mono fun _ _ => hd.nearest_global_iff.mp
      · rw [hfresh]
        simpa [typeExprs, identitiesOf] using hnumbered
  | procedure p =>
      rw [declare] at h
      obtain ⟨⟨p', d₁⟩, scope, hdeclare, hrest⟩ := yields_andThen_iff.mp h
      obtain ⟨hdeclared, hfree, hholds, -, hnumbered⟩ := Procedure.of_yields_declare hd hdeclare
      -- Writing a listing leaves the table as it is.
      obtain ⟨rfl, htable, hfresh⟩ : declaration' = procedure p' ∧ d'.table = d₁.table ∧
          d'.fresh = d₁.fresh := by
        dsimp only at hrest
        split at hrest
        · obtain ⟨d₂, ⟨⟩, hlist, hnode, -⟩ := yields_map_iff.mp hrest
          cases hnode
          exact ⟨rfl, Draft.of_yields_list hlist⟩
        · obtain ⟨hnode, -⟩ := yields_ok_iff.mp hrest
          cases hnode
          exact ⟨rfl, rfl, rfl⟩
      exact ⟨_, .procedure hdeclared hfree, htable ▸ hholds, hfresh ▸ hnumbered⟩

theorem entered_of_threaded {options : Options} {d d' : Draft} {c : Contents}
    (hd : d.table.Holds c.scopes) {ds ds' : List Declaration} {units : List Unit}
    (h : Threaded (Declaration.declare options) ds d ds' d' units) :
    ∃ c', Entered c ds' c' ∧ d'.table.Holds c'.scopes ∧
      Numbered d.fresh d'.fresh (identitiesOf (ds'.flatMap Declaration.typeExprs)) := by
  induction h generalizing c with
  | nil => exact ⟨c, .nil, hd, .nil⟩
  | cons h _ ih =>
      obtain ⟨c₁, henters, hholds, hnumbered⟩ := Declaration.of_yields_declare hd h
      obtain ⟨c₂, hentered, hholds', hnumbers⟩ := ih hholds
      refine ⟨c₂, .cons henters hentered, hholds', ?_⟩
      rw [List.flatMap_cons, identitiesOf_append]
      exact hnumbered.append hnumbers

/-- A built table holds what the declarations have entered into the initial
one, and their type expressions have identities of their own. -/
theorem Program.entered_of_buildTable {options : Options} {p : Program} {fresh : Nat}
    {output : Text.Sink} {table : SymbolTable}
    (h : (p.buildTable options fresh output).result = .ok table) :
    ∃ built d c, (p.buildTable options fresh output).Yields (built, d) table ∧
      Entered options.library.contents built.declarations c ∧ table.Holds c.scopes ∧
      table.entryPoint = .ok () ∧
      Numbered fresh d.fresh (identitiesOf (built.declarations.flatMap Declaration.typeExprs)) := by
  obtain ⟨initial, hinitial, hholds⟩ := SymbolTable.exists_initial options.library
  have hyields := yields_of_result h
  generalize (p.buildTable options fresh output).after = after at hyields
  rw [buildTable, hinitial] at hyields ⊢
  obtain ⟨⟨ds, d⟩, units, hrun, hend⟩ := yields_andThen_iff.mp hyields
  obtain ⟨c, hentered, hholds', hnumbered⟩ :=
    entered_of_threaded (d := ⟨initial, fresh, output⟩) hholds (yields_threadAll_iff.mp hrun)
  have hafter := hend.after_eq
  have hresult := hend.result_eq
  dsimp only at hafter hresult
  cases hentry : d.table.entryPoint with
  | error halt =>
      rw [hentry] at hresult
      cases hresult
  | ok _ =>
      rw [hentry] at hresult
      cases hresult
      subst hafter
      exact ⟨_, d, c, hyields, hentered, hholds', hentry, hnumbered⟩

end Spl
