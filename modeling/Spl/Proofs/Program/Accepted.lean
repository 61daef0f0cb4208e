import Spl.Proofs.Parser.Freshness
import Spl.Proofs.Phases
import Spl.Proofs.Program.Fitting

/-!
Acceptance of declarations. The builder makes a table for a program that was
read exactly if the declarations of the program are well formed. Only a
listing that cannot be written can get in its way.
-/

namespace Spl

open Outcome

/-! ### What fits is entered -/

section Local

variable {globals bindings : List Binding} {outer : List (List Binding)} {d : Draft}

theorem TypeExpr.exists_yields_resolveIn {scope : ScopeId} (hΓ : Context.Valid ⟨d.table, scope⟩)
    {e : TypeExpr} (he : e.Fresh)
    (hnames : ∀ n ∈ e.names, ∃ ty, Context.NamesType ⟨d.table, scope⟩ n ty) :
    ∃ e' d' ty, (e.resolveIn scope d).Yields (e', d') ty := by
  obtain ⟨⟨e', fresh⟩, ty, h⟩ := TypeExpr.exists_yields_resolve hΓ he hnames d.fresh
  exact ⟨e', { d with fresh }, ty, yields_map_iff.mpr ⟨_, _, h, rfl, rfl⟩⟩

/-- A parameter can be entered if its name is new, its type is one that is
declared, and it is a reference if that is an array. -/
theorem Parameter.exists_yields_declare (hd : d.table.Holds (globals :: (outer ++ [bindings])))
    {p : Parameter} (hfresh : p.type.Fresh)
    (hnames : ∀ n ∈ p.type.names, ∃ ty, (n, Entry.type ty) ∈ globals)
    (hfree : p.name ∉ bindings.map Prod.fst)
    (hreference : ∀ (e : TypeExpr) (ty : Ty), e.erase = p.type.erase →
      e.Resolved (fun name ty => (name, .type ty) ∈ globals) ty → ty.isArray = true →
        p.byReference = true) :
    ∃ p' d' formal, (p.declare ⟨outer.length + 1⟩ d).Yields (p', d') formal := by
  have hΓ : Context.Valid ⟨d.table, .global⟩ := hd.valid rfl
  have hmeans : ∀ n ∈ p.type.names, ∃ ty, Context.NamesType ⟨d.table, .global⟩ n ty := by
    intro n hn
    obtain ⟨ty, hty⟩ := hnames n hn
    exact ⟨ty, hd.nearest_global_iff.mpr hty⟩
  obtain ⟨e, d₁, ty, hresolve⟩ := TypeExpr.exists_yields_resolveIn hΓ hfresh hmeans
  obtain ⟨htable, hresolved, -⟩ := TypeExpr.of_yields_resolveIn hΓ hresolve
  have hkept : ty.isArray = true → p.byReference = true :=
    hreference e ty ((TypeExpr.leaves_resolveIn .global p.type d).of_yields hresolve)
      (hresolved.mono fun _ _ => hd.nearest_global_iff.mp)
  obtain ⟨d₂, hdeclare⟩ := Draft.exists_yields_declare (htable ▸ hd) ⟨outer.length + 1⟩
    getElem?_last_scope hfree
    (.var ty p.byReference) ⟨.redeclarationAsParameter p.name, p.position⟩
  refine ⟨{ p with type := e }, d₂, ⟨ty, p.byReference⟩, ?_⟩
  rw [Parameter.declare, yields_andThen_iff]
  refine ⟨_, _, hresolve, ?_⟩
  dsimp only
  rw [if_neg (by simpa using hkept)]
  exact yields_map_iff.mpr ⟨_, _, hdeclare, rfl, rfl⟩

theorem exists_threaded_parameters (hd : d.table.Holds (globals :: (outer ++ [bindings])))
    {ps : List Parameter} (hfresh : ∀ p ∈ ps, p.type.Fresh)
    (hnames : ∀ p ∈ ps, ∀ n ∈ p.type.names, ∃ ty, (n, Entry.type ty) ∈ globals)
    (hnodup : (bindings.map Prod.fst ++ ps.map Parameter.name).Nodup)
    (hreference : ∀ p ∈ ps, ∀ (e : TypeExpr) (ty : Ty), e.erase = p.type.erase →
      e.Resolved (fun name ty => (name, .type ty) ∈ globals) ty → ty.isArray = true →
        p.byReference = true) :
    ∃ ps' d' formals, Threaded (Parameter.declare ⟨outer.length + 1⟩) ps d ps' d' formals := by
  induction ps generalizing d bindings with
  | nil => exact ⟨[], d, [], .nil⟩
  | cons p ps ih =>
      rw [List.forall_mem_cons] at hfresh hnames hreference
      have hfree : p.name ∉ bindings.map Prod.fst := fun hmem =>
        (List.nodup_append.mp hnodup).2.2 _ hmem _ List.mem_cons_self rfl
      obtain ⟨p', d', formal, hfirst⟩ :=
        Parameter.exists_yields_declare hd hfresh.1 hnames.1 hfree hreference.1
      obtain ⟨hd', -⟩ := Parameter.of_yields_declare hd hfirst
      have hname : p'.name = p.name := by
        have herase : p'.erase = p.erase :=
          (Parameter.leaves_declare ⟨outer.length + 1⟩ p d).of_yields hfirst
        show p'.erase.name = p.erase.name
        rw [herase]
      have hnodup' : ((bindings ++ [p'.binding]).map Prod.fst ++ ps.map Parameter.name).Nodup := by
        simpa [Parameter.binding, hname] using hnodup
      obtain ⟨ps', d'', formals, hrest⟩ := ih hd' hfresh.2 hnames.2 hnodup' hreference.2
      exact ⟨_, _, _, .cons hfirst hrest⟩

/-- A variable can be entered if its name is new and its type is one that is
declared and not the name of a parameter or variable before it. -/
theorem LocalVariable.exists_yields_declare
    (hd : d.table.Holds (globals :: (outer ++ [bindings]))) (hvariables : OnlyVariables bindings)
    {v : LocalVariable} (hfresh : v.type.Fresh)
    (hnames : ∀ n ∈ v.type.names,
      (∃ ty, (n, Entry.type ty) ∈ globals) ∧ n ∉ bindings.map Prod.fst)
    (hfree : v.name ∉ bindings.map Prod.fst) :
    ∃ v' d', (v.declare ⟨outer.length + 1⟩ d).Yields (v', d') () := by
  have hΓ : Context.Valid ⟨d.table, ⟨outer.length + 1⟩⟩ := hd.valid getElem?_last_scope
  have hmeans : ∀ n ∈ v.type.names,
      ∃ ty, Context.NamesType ⟨d.table, ⟨outer.length + 1⟩⟩ n ty := by
    intro n hn
    obtain ⟨⟨ty, hty⟩, hnot⟩ := hnames n hn
    exact ⟨ty, (namesType_local_iff hd hvariables).mpr ⟨hty, hnot⟩⟩
  obtain ⟨e, d₁, ty, hresolve⟩ := TypeExpr.exists_yields_resolveIn hΓ hfresh hmeans
  obtain ⟨htable, -, -⟩ := TypeExpr.of_yields_resolveIn hΓ hresolve
  obtain ⟨d₂, hdeclare⟩ := Draft.exists_yields_declare (htable ▸ hd) ⟨outer.length + 1⟩
    getElem?_last_scope hfree
    (.var ty false) ⟨.redeclarationAsVariable v.name, v.position⟩
  refine ⟨{ v with type := e }, d₂, ?_⟩
  rw [LocalVariable.declare, yields_andThen_iff]
  exact ⟨_, _, hresolve, yields_map_iff.mpr ⟨_, _, hdeclare, rfl, rfl⟩⟩

theorem exists_threaded_locals (hd : d.table.Holds (globals :: (outer ++ [bindings])))
    (hvariables : OnlyVariables bindings) {vs : List LocalVariable}
    (hfresh : ∀ v ∈ vs, v.type.Fresh)
    (hnames : ∀ before v after, vs = before ++ v :: after → ∀ n ∈ v.type.names,
      (∃ ty, (n, Entry.type ty) ∈ globals) ∧
        n ∉ bindings.map Prod.fst ++ before.map LocalVariable.name)
    (hnodup : (bindings.map Prod.fst ++ vs.map LocalVariable.name).Nodup) :
    ∃ vs' d' units, Threaded (LocalVariable.declare ⟨outer.length + 1⟩) vs d vs' d' units := by
  induction vs generalizing d bindings with
  | nil => exact ⟨[], d, [], .nil⟩
  | cons v vs ih =>
      rw [List.forall_mem_cons] at hfresh
      have hfree : v.name ∉ bindings.map Prod.fst := fun hmem =>
        (List.nodup_append.mp hnodup).2.2 _ hmem _ List.mem_cons_self rfl
      obtain ⟨v', d', hfirst⟩ := LocalVariable.exists_yields_declare hd hvariables hfresh.1
        (by simpa using hnames [] v vs rfl) hfree
      obtain ⟨hd', -⟩ := LocalVariable.of_yields_declare hd hvariables hfirst
      have hname : v'.name = v.name := by
        have herase : v'.erase = v.erase :=
          (LocalVariable.leaves_declare ⟨outer.length + 1⟩ v d).of_yields hfirst
        show v'.erase.name = v.erase.name
        rw [herase]
      have hmap : (bindings ++ [v'.binding]).map Prod.fst = bindings.map Prod.fst ++ [v.name] := by
        simp [LocalVariable.binding, hname]
      have hvariables' : OnlyVariables (bindings ++ [v'.binding]) :=
        onlyVariables_append.mpr ⟨hvariables, onlyVariables_locals [v']⟩
      have hnames' : ∀ before w after, vs = before ++ w :: after → ∀ n ∈ w.type.names,
          (∃ ty, (n, Entry.type ty) ∈ globals) ∧
            n ∉ (bindings ++ [v'.binding]).map Prod.fst ++ before.map LocalVariable.name := by
        rintro before w after rfl
        rw [hmap]
        simpa using hnames (v :: before) w after rfl
      obtain ⟨vs', d'', units, hrest⟩ := ih hd' hvariables' hfresh.2 hnames'
        (by rw [hmap]; simpa using hnodup)
      exact ⟨_, _, _, .cons hfirst hrest⟩

end Local

section Declared

variable {library : Library} {ds : List Declaration} {c : Contents} {d : Draft}

theorem TypeDeclaration.exists_yields_declare (hentered : Entered library.contents ds c)
    (hd : d.table.Holds c.scopes) {t : TypeDeclaration} (hfresh : t.type.Fresh)
    (hnames : ∀ n ∈ t.type.names, IsTypeName ds n) (hfree : t.name ∉ c.names) :
    ∃ t' d', (t.declare d).Yields (t', d') () := by
  have hΓ : Context.Valid ⟨d.table, .global⟩ := hd.valid rfl
  have hmeans : ∀ n ∈ t.type.names, ∃ ty, Context.NamesType ⟨d.table, .global⟩ n ty := by
    intro n hn
    obtain ⟨ty, hty⟩ := hentered.exists_namesType_iff.mpr (hnames n hn)
    exact ⟨ty, hd.nearest_global_iff.mpr hty⟩
  obtain ⟨e, d₁, ty, hresolve⟩ := TypeExpr.exists_yields_resolveIn hΓ hfresh hmeans
  obtain ⟨htable, -, -⟩ := TypeExpr.of_yields_resolveIn hΓ hresolve
  obtain ⟨d₂, hdeclare⟩ := Draft.exists_yields_declare (htable ▸ hd) .global rfl hfree
    (.type ty) ⟨.redeclarationAsType t.name, t.position⟩
  refine ⟨{ t with type := e }, d₂, ?_⟩
  rw [TypeDeclaration.declare, yields_andThen_iff]
  exact ⟨_, _, hresolve, yields_map_iff.mpr ⟨_, _, hdeclare, rfl, rfl⟩⟩

theorem Procedure.exists_yields_declare (hentered : Entered library.contents ds c)
    (hd : d.table.Holds c.scopes) {p : Procedure} (hfresh : p.Fresh)
    (hfits : p.FitsAfter (ds.map Declaration.eraseTypes)) (hfree : p.name ∉ c.names) :
    ∃ p' d' scope, (p.declare d).Yields (p', d') scope := by
  have hmeans : ∀ {n : String}, IsTypeName (ds.map Declaration.eraseTypes) n →
      ∃ ty, (n, Entry.type ty) ∈ c.globals := fun hn =>
    hentered.exists_namesType_iff.mpr (isTypeName_eraseTypes.mp hn)
  have hreference : ∀ q ∈ p.parameters, ∀ (e : TypeExpr) (ty : Ty), e.erase = q.type.erase →
      e.Resolved c.NamesType ty → ty.isArray = true → q.byReference = true := by
    intro q hq e ty herase hresolved harray
    apply hfits.arrays q hq
    have he : e.erase.IsArray (ds.map Declaration.eraseTypes) :=
      TypeExpr.isArray_erase.mpr ((hentered.isArray_iff hresolved).mp harray)
    rwa [herase, TypeExpr.erase_of_fresh (hfresh.parameters q hq)] at he
  have hnest : (d.table.nest .global).1.Holds (c.globals :: (c.locals ++ [[]])) := hd.nest
  have hscope : (d.table.nest .global).2 = ⟨c.locals.length + 1⟩ := hd.snd_nest
  rw [Procedure.declare]
  generalize d.table.nest .global = nested at hnest hscope ⊢
  obtain ⟨table, scope⟩ := nested
  obtain rfl : scope = ⟨c.locals.length + 1⟩ := hscope
  obtain ⟨parameters, d₁, formals, hparameters⟩ :=
    exists_threaded_parameters (d := { d with table }) hnest hfresh.parameters
      (fun q hq n hn => hmeans (hfits.parameterTypes q hq n hn))
      (by simpa using (List.nodup_append.mp hfits.distinct).1) hreference
  obtain ⟨hholds₁, -⟩ := of_threaded_parameters hnest hparameters
  have hnames : ([] ++ parameters.map Parameter.binding).map Prod.fst =
      p.parameters.map Parameter.name := by
    have herase : parameters.map Parameter.erase = p.parameters.map Parameter.erase :=
      (leaves_threadAll (Parameter.leaves_declare ⟨c.locals.length + 1⟩) p.parameters _).of_yields
        (yields_threadAll_iff.mpr hparameters)
    simpa using congrArg (List.map Parameter.name) herase
  obtain ⟨locals, d₂, units, hlocals⟩ :=
    exists_threaded_locals hholds₁ (onlyVariables_parameters _) hfresh.locals
      (by
        intro before v after hsplit n hn
        obtain ⟨htype, hparameter, hlocal⟩ := hfits.localTypes before v after hsplit n hn
        rw [hnames, List.mem_append, not_or]
        exact ⟨hmeans htype, hparameter, hlocal⟩)
      (by rw [hnames]; exact hfits.distinct)
  obtain ⟨hholds₂, -⟩ := of_threaded_locals hholds₁ (onlyVariables_parameters _) hlocals
  obtain ⟨d₃, hdeclare⟩ := Draft.exists_yields_declare hholds₂ .global rfl hfree
    (.procedure ⟨⟨c.locals.length + 1⟩, formals⟩)
    ⟨.redeclarationAsProcedure p.name, p.position⟩
  refine ⟨{ p with parameters, locals }, d₃, ⟨c.locals.length + 1⟩, ?_⟩
  refine yields_andThen_iff.mpr ⟨_, _, yields_threadAll_iff.mpr hparameters, ?_⟩
  refine yields_andThen_iff.mpr ⟨_, _, yields_threadAll_iff.mpr hlocals, ?_⟩
  exact yields_map_iff.mpr ⟨_, _, hdeclare, rfl, rfl⟩

end Declared

/-! ### Listings that cannot be written -/

/-- The pass ends because a listing could not be written. -/
def Outcome.DumpFails {α ν : Type} (o : Outcome ν α) : Prop :=
  ∃ reason position, o.result = .error (Cause.halt (.tableDumpFailed reason) position)

section DumpFails

variable {α β ν μ : Type} {o : Outcome ν α}

theorem Outcome.DumpFails.andThen (h : o.DumpFails) (rebuild : ν → μ)
    (next : ν → α → Outcome μ β) : (o.andThen rebuild next).DumpFails := by
  obtain ⟨reason, position, hresult⟩ := h
  obtain ⟨x, result⟩ := o
  obtain rfl : result = _ := hresult
  exact ⟨reason, position, rfl⟩

theorem Outcome.DumpFails.map (h : o.DumpFails) (rebuild : ν → μ) (value : α → β) :
    (o.map rebuild value).DumpFails := by
  obtain ⟨reason, position, hresult⟩ := h
  exact ⟨reason, position, by rw [result_map, hresult]; rfl⟩

theorem Outcome.Yields.andThen_eq {x : ν} {a : α} (h : o.Yields x a) (rebuild : ν → μ)
    (next : ν → α → Outcome μ β) : o.andThen rebuild next = next x a := by
  rw [h, andThen_ok]

end DumpFails

theorem Draft.list_yields_or_dumpFails {d : Draft} {scope : ScopeId}
    (hΓ : Context.Valid ⟨d.table, scope⟩) (p : Procedure) :
    (∃ d', (d.list p scope).Yields d' ()) ∨ (d.list p scope).DumpFails := by
  obtain ⟨scopes, hchain⟩ := SymbolTable.exists_chain hΓ.grounded hΓ.exists_scope
  have hlisting : d.table.listing scope = .ok (listingOf scopes) := by
    rw [SymbolTable.listing, hchain]
    rfl
  rw [Draft.list, hlisting]
  dsimp only
  split
  · exact .inl ⟨_, rfl⟩
  · exact .inr ⟨_, _, rfl⟩

/-! ### Runs of the builder -/

section Runs

variable {library : Library} {ds : List Declaration} {c : Contents} {d : Draft}

/-- A declaration that fits is entered, unless its listing cannot be written. -/
theorem Declaration.declare_yields_or_dumpFails (options : Options)
    (hentered : Entered library.contents ds c) (hd : d.table.Holds c.scopes)
    {declaration : Declaration} (hfresh : declaration.Fresh)
    (hfits : declaration.FitsAfter library (ds.map Declaration.eraseTypes)) :
    (∃ declaration' d', (declaration.declare options d).Yields (declaration', d') ()) ∨
      options.listsTables = true ∧ (declaration.declare options d).DumpFails := by
  have hfree : declaration.name ∉ c.names := by
    have hearlier : declaration.name ∉ ds.map Declaration.name := by
      simpa using hfits.not_earlier
    rw [hentered.names_eq, library.names_contents, List.mem_append, List.mem_cons]
    rintro ((hint | hlibrary) | hmem)
    · exact hfits.not_int hint
    · exact hfits.not_library hlibrary
    · exact hearlier hmem
  cases declaration with
  | type t =>
      have hnames : ∀ n ∈ t.type.names, IsTypeName ds n := fun n hn =>
        isTypeName_eraseTypes.mp (hfits.parts n hn)
      obtain ⟨t', d', hdeclare⟩ :=
        TypeDeclaration.exists_yields_declare hentered hd hfresh hnames hfree
      rw [Declaration.declare]
      exact .inl ⟨.type t', d', yields_map_iff.mpr ⟨_, _, hdeclare, rfl, rfl⟩⟩
  | procedure p =>
      obtain ⟨p', d', scope, hdeclare⟩ :=
        Procedure.exists_yields_declare hentered hd hfresh hfits.parts hfree
      obtain ⟨-, -, hholds, rfl, -⟩ := Procedure.of_yields_declare hd hdeclare
      have hlast : (c.addProcedure p'.name p'.formals p'.bindings).scopes[c.locals.length + 1]? =
          some p'.bindings := by simp [Contents.scopes, Contents.addProcedure]
      have hΓ : Context.Valid ⟨d'.table, ⟨c.locals.length + 1⟩⟩ := hholds.valid hlast
      rw [Declaration.declare, hdeclare.andThen_eq]
      dsimp only
      split
      · next hlists =>
        cases Draft.list_yields_or_dumpFails hΓ p' with
        | inl hlist =>
            obtain ⟨d'', hlist⟩ := hlist
            exact .inl ⟨.procedure p', d'', yields_map_iff.mpr ⟨_, _, hlist, rfl, rfl⟩⟩
        | inr hfails => exact .inr ⟨hlists, hfails.map _ _⟩
      · exact .inl ⟨.procedure p', d', rfl⟩

/-- Declarations that fit one after the other are entered one after the other,
unless a listing cannot be written. -/
theorem declareAll_yields_or_dumpFails (options : Options)
    (hentered : Entered library.contents ds c) (hd : d.table.Holds c.scopes)
    {rest : List Declaration} (hfresh : ∀ x ∈ rest, x.Fresh)
    (hfits : ∀ before x after, rest = before ++ x :: after →
      x.FitsAfter library (ds.map Declaration.eraseTypes ++ before)) :
    (∃ rest' d' units, (threadAll (Declaration.declare options) rest d).Yields (rest', d') units) ∨
      options.listsTables = true ∧
        (threadAll (Declaration.declare options) rest d).DumpFails := by
  -- Each step puts one more declaration behind those that were entered.
  induction rest generalizing ds c d with
  | nil => exact .inl ⟨[], d, [], rfl⟩
  | cons x rest ih =>
      rw [List.forall_mem_cons] at hfresh
      have hfirst := Declaration.declare_yields_or_dumpFails options hentered hd hfresh.1
        (by simpa using hfits [] x rest rfl)
      cases hfirst with
      | inr hfails => exact .inr ⟨hfails.1, hfails.2.andThen _ _⟩
      | inl hyields =>
          obtain ⟨x', d', hyields⟩ := hyields
          obtain ⟨c', henters, hholds, -⟩ := Declaration.of_yields_declare hd hyields
          have herase : x'.eraseTypes = x :=
            ((Declaration.leaves_declare options x d).of_yields hyields).trans
              (Declaration.eraseTypes_of_fresh hfresh.1)
          have hrest := ih (hentered.snoc henters) hholds hfresh.2 <| by
            rintro before y after rfl
            simpa [herase] using hfits (x :: before) y after rfl
          rw [threadAll, hyields.andThen_eq]
          cases hrest with
          | inl hdone =>
              obtain ⟨rest', d'', units, hdone⟩ := hdone
              exact .inl ⟨_, _, _, yields_map_iff.mpr ⟨_, _, hdone, rfl, rfl⟩⟩
          | inr hfails => exact .inr ⟨hfails.1, hfails.2.map _ _⟩

theorem SymbolTable.entryPoint_eq_ok_iff {t : SymbolTable} :
    t.entryPoint = .ok () ↔
      ∃ scope, t.get .global "main" = .ok (some (.procedure ⟨scope, []⟩)) := by
  rw [entryPoint]
  match t.get .global "main" with
  | .error _ => simp [Except.mapError, bind, Except.bind]
  | .ok none => simp [Except.mapError, bind, Except.bind, throw, throwThe, MonadExceptOf.throw]
  | .ok (some (.type _)) =>
      simp [Except.mapError, bind, Except.bind, throw, throwThe, MonadExceptOf.throw]
  | .ok (some (.var _ _)) =>
      simp [Except.mapError, bind, Except.bind, throw, throwThe, MonadExceptOf.throw]
  | .ok (some (.procedure ⟨scope, formals⟩)) =>
      cases formals <;>
        simp [Except.mapError, bind, Except.bind, pure, Except.pure, throw, throwThe,
          MonadExceptOf.throw]

/-- Behind declarations there is an entry point exactly if they have one. The
library has no `main`. -/
theorem Entered.entryPoint_eq_ok_iff (hentered : Entered library.contents ds c) {t : SymbolTable}
    (ht : t.Holds c.scopes) :
    t.entryPoint = .ok () ↔ HasMain ds := by
  have hmeans : ∀ entry, t.get .global "main" = .ok (some entry) ↔ ("main", entry) ∈ c.globals :=
    fun entry => ht.get_global_iff
  rw [SymbolTable.entryPoint_eq_ok_iff]
  simp only [hmeans]
  constructor
  · rintro ⟨scope, hscope⟩
    cases hentered.of_mem_globals hscope with
    | inl hlibrary =>
        have hname : "main" ∈ library.contents.names := List.mem_map.mpr ⟨_, hlibrary, rfl⟩
        rw [library.names_contents] at hname
        exact absurd hname (by cases library <;> decide +kernel)
    | inr hdeclared =>
        obtain ⟨p, hp, hname, hformals⟩ := hdeclared
        exact ⟨p, hp, hname, List.map_eq_nil_iff.mp hformals.symm⟩
  · rintro ⟨p, hp, hname, hparameters⟩
    obtain ⟨i, hmem, -, -⟩ := hentered.exists_procedure hp
    rw [hname, Procedure.formals, hparameters] at hmem
    exact ⟨_, hmem⟩

end Runs

/-! ### Programs -/

/-- A program without types gets a table if its declarations are well formed,
unless a listing cannot be written. -/
theorem Program.WellDeclared.exists_buildTable {options : Options} {p : Program}
    (h : p.WellDeclared options.library) (hfresh : p.Fresh) {fresh : Nat} {output : Text.Sink}
    (hdump : options.listsTables = true → ¬(p.buildTable options fresh output).DumpFails) :
    ∃ table, (p.buildTable options fresh output).result = .ok table := by
  obtain ⟨hfits, hmain⟩ := h
  obtain ⟨initial, hinitial, hholds⟩ := SymbolTable.exists_initial options.library
  rw [Program.buildTable, hinitial] at hdump ⊢
  dsimp only at hdump ⊢
  have hrun := declareAll_yields_or_dumpFails options (d := ⟨initial, fresh, output⟩) .nil hholds
    hfresh hfits
  cases hrun with
  | inr hfails => exact absurd (hfails.2.andThen _ _) (hdump hfails.1)
  | inl hdone =>
      obtain ⟨ds, d, units, hdone⟩ := hdone
      obtain ⟨c, hentered, hholds', -⟩ :=
        entered_of_threaded (d := ⟨initial, fresh, output⟩) hholds (yields_threadAll_iff.mp hdone)
      have herase : ds.map Declaration.eraseTypes = p.declarations.map Declaration.eraseTypes :=
        (leaves_threadAll (Declaration.leaves_declare options) _ _).of_yields hdone
      have hmain' : HasMain ds := by
        rwa [← hasMain_eraseTypes, herase, hasMain_eraseTypes]
      have hentry := (hentered.entryPoint_eq_ok_iff hholds').mpr hmain'
      rw [hdone.andThen_eq]
      exact ⟨d.table, by rw [hentry]; rfl⟩

/-- The builder makes a table for a program that was read exactly if its
declarations are well formed, unless a listing cannot be written. -/
theorem buildTable_eq_ok_iff_wellDeclared {file : String} {tokens rest : List Token} {p : Program}
    (hparse : parse file tokens = .ok p rest) {options : Options} {fresh : Nat}
    {output : Text.Sink}
    (hdump : options.listsTables = true → ¬(p.buildTable options fresh output).DumpFails) :
    (∃ table, (p.buildTable options fresh output).result = .ok table) ↔
      p.WellDeclared options.library := by
  have hfresh := Program.fresh_of_parse hparse
  constructor
  · rintro ⟨table, htable⟩
    obtain ⟨built, d, c, hyields, hentered, hholds, hmain, -⟩ :=
      Program.entered_of_buildTable htable
    have hbuilt : built.WellDeclared options.library :=
      ⟨hentered.fits, (hentered.entryPoint_eq_ok_iff hholds).mp hmain⟩
    have herase : built.eraseTypes = p := by
      have hleaves := (p.leaves_buildTable options fresh output).of_yields hyields
      exact hleaves.trans (Program.eraseTypes_of_fresh hfresh)
    rwa [← herase, Program.wellDeclared_eraseTypes]
  · exact fun hdeclared => hdeclared.exists_buildTable hfresh hdump

/-- A program with an array behind an alias, and with a variable that takes the
name of a type. Listings of its tables are written. -/
theorem wellDeclared_shadowed_type : ∃ tokens rest p,
    tokenize "type V = array [2] of int;
      type W = V;
      proc f(ref a: W, V: int) \x7b \x7d
      proc main() \x7b var V: V; f(V, 1); \x7d" (some "a.spl") = .ok tokens ∧
    parse "a.spl" tokens = .ok p rest ∧
    ¬(p.buildTable ⟨.tables, .standard⟩ 0 .unlimited).DumpFails ∧
    p.WellDeclared .standard := by
  have haccepted : (analyze "type V = array [2] of int;
      type W = V;
      proc f(ref a: W, V: int) \x7b \x7d
      proc main() \x7b var V: V; f(V, 1); \x7d" "a.spl"
      ⟨.tables, .standard⟩).result.toOption.isSome = true := by
    decide +kernel
  obtain ⟨after, table, hanalyze⟩ := exists_analyze_eq_ok haccepted
  obtain ⟨tokens, rest, p, hphases, -⟩ := phases_of_analyze hanalyze
  have hdump : ¬(p.buildTable ⟨.tables, .standard⟩ 0 .unlimited).DumpFails := by
    rintro ⟨reason, position, hresult⟩
    rw [hphases.buildTable_eq] at hresult
    cases hresult
  refine ⟨tokens, rest, p, hphases.tokenize_eq, hphases.parse_eq, hdump, ?_⟩
  exact (buildTable_eq_ok_iff_wellDeclared hphases.parse_eq fun _ => hdump).mp
    ⟨table, hphases.buildTable_eq⟩

end Spl
