import Spl.Program.Table
import Spl.Proofs.Scope.Library
import Spl.Proofs.Scope.Translated

/-!
Entering declarations does not look into labels and numbers either. What the
builder does to a draft it does through a few operations; so a correspondence of
drafts that these keep is kept by the whole builder, and building the table of a
program in translation follows building the table of the program.
-/

namespace Spl

open Outcome Outcome.Follows

variable {m : Translation} {strict : Prop} {named : String → Prop} {D : Draft → Draft → Prop}

theorem SymbolTable.Follows.entryPoint {t t' : SymbolTable} (h : SymbolTable.Follows m strict t t')
    (hmain : m.name "main" = "main") (hnull : m.place .null = .null) :
    ResultFollows (Halt.translate m) strict (Image id) t.entryPoint t'.entryPoint := by
  have hget := h.get "main"
  rw [hmain] at hget
  have hhalt : ∀ cause : Cause, cause.rename m.name = cause →
      (cause.halt .null).translate m = cause.halt .null := by
    intro cause hcause
    simp only [Cause.halt, Halt.translate, Diagnostic.relabel, hcause, hnull]
  have hfail : ∀ cause : Cause, cause.rename m.name = cause →
      ResultFollows (Halt.translate m) strict (Image (id : Unit → Unit))
        (.error (cause.halt .null)) (.error (cause.halt .null)) := fun _ hcause =>
    .error fun _ => by rw [hhalt _ hcause]
  rw [SymbolTable.entryPoint, SymbolTable.entryPoint]
  generalize t.get .global "main" = found, t'.get .global "main" = found' at hget ⊢
  cases hget with
  | error hfound => exact .error fun hstrict => by rw [hfound hstrict]; rfl
  | ok hfound =>
      cases hfound with
      | none hnone =>
          refine .error fun hstrict => ?_
          rw [hnone hstrict, hhalt .mainIsMissing rfl]
          rfl
      | some entry =>
          cases entry with
          | type _ | var _ _ => exact hfail .mainIsNotAProcedure rfl
          | procedure signature =>
              obtain ⟨scope, formals⟩ := signature
              cases formals with
              | nil => exact .ok rfl
              | cons _ _ => exact hfail .mainMustNotHaveParameters rfl

/-- A draft keeps what it does not need for a declaration. -/
theorem Draft.follows_declare {T : SymbolTable → SymbolTable → Prop} {d d' : Draft} (hd : D d d')
    (htable : ∀ t t', T t t' → D { d with table := t } { d' with table := t' })
    {scope scope' : ScopeId} {name name' : String} {entry entry' : Entry}
    {complaint complaint' : Diagnostic}
    (h : ResultFollows (Halt.translate m) strict T (d.table.declare scope name entry complaint)
      (d'.table.declare scope' name' entry' complaint')) :
    (d.declare scope name entry complaint).Follows m strict D (Image id)
      (d'.declare scope' name' entry' complaint') := by
  generalize hresult : d.table.declare scope name entry complaint = result,
    hresult' : d'.table.declare scope' name' entry' complaint' = result' at h
  cases h with
  | ok ht =>
      rw [declare_of_ok hresult, declare_of_ok hresult']
      exact .ok (htable _ _ ht) rfl
  | error hhalt =>
      rw [declare_of_error hresult]
      exact .error fun hstrict =>
        ⟨d', hd, declare_of_error (hresult'.trans (hhalt hstrict))⟩

/-- The same listing is written to the same end. -/
theorem Draft.follows_list {d d' : Draft} (hd : D d d') (houtput : d'.output = d.output)
    (hwritten : ∀ output, D { d with output } { d' with output }) {p p' : Procedure}
    (hname : p'.name = p.name) (hposition : p'.position = m.place p.position)
    {scope scope' : ScopeId}
    (h : ResultFollows (Fault.translate m) strict (Image id) (d.table.listing scope)
      (d'.table.listing scope')) :
    (d.list p scope).Follows m strict D (Image id) (d'.list p' scope') := by
  rw [list, list]
  generalize d.table.listing scope = result, d'.table.listing scope' = result' at h ⊢
  cases h with
  | error hresult => exact .error fun hstrict => ⟨d', hd, by rw [hresult hstrict]; rfl⟩
  | ok hsame =>
      subst hsame
      dsimp only
      rw [houtput, hname, hposition]
      split
      · exact .ok (hwritten _) rfl
      · exact .error fun _ => ⟨_, hwritten _, rfl⟩

/-- A correspondence of drafts that the operations of the builder keep, where
global declarations have names of one kind only. -/
structure Draft.Simulation (m : Translation) (strict : Prop) (named : String → Prop)
    (D : Draft → Draft → Prop) : Prop where
  global : m.scope .global = .global
  main : m.name "main" = "main"
  null : m.place .null = .null
  table : ∀ {d d'}, D d d' → SymbolTable.Follows m strict d.table d'.table
  identity : ∀ {d d'}, D d d' → ∀ made, m.identity (d.fresh + made) = d'.fresh + made
  fresh : ∀ {d d'}, D d d' → ∀ made,
    D { d with fresh := d.fresh + made } { d' with fresh := d'.fresh + made }
  nest : ∀ {d d'}, D d d' → ((d.table.nest .global).2 = .global → ∀ name, named name) ∧
    (d'.table.nest .global).2 = m.scope (d.table.nest .global).2 ∧
    D { d with table := (d.table.nest .global).1 } { d' with table := (d'.table.nest .global).1 }
  declare : ∀ {d d'}, D d d' → ∀ scope name entry complaint, (scope = .global → named name) →
    (d.declare scope name entry complaint).Follows m strict D (Image id)
      (d'.declare (m.scope scope) (m.name name) (entry.translate m)
        (complaint.relabel m.toRelabelling))
  list : ∀ {d d'}, D d d' → ∀ p scope,
    (d.list p scope).Follows m strict D (Image id) (d'.list (p.translate m) (m.scope scope))

section Declarations

variable (h : Draft.Simulation m strict named D) {d d' : Draft}
include h

theorem TypeExpr.follows_resolveIn (hd : D d d') (scope : ScopeId) (e : TypeExpr) :
    (e.resolveIn scope d).Follows m strict (Beside (TypeExpr.translate m) D)
      (Image (Ty.translate m)) ((e.translate m).resolveIn (m.scope scope) d') := by
  have hresolve := e.follows_resolve ((h.table hd).context scope) (h.identity hd)
  refine hresolve.map ?_ fun _ _ hty => hty
  rintro ⟨e, _⟩ ⟨_, _⟩ ⟨rfl, made, rfl, rfl⟩
  exact ⟨rfl, h.fresh hd made⟩

theorem TypeExpr.follows_resolveIn_global (hd : D d d') (e : TypeExpr) :
    (e.resolveIn .global d).Follows m strict (Beside (TypeExpr.translate m) D)
      (Image (Ty.translate m)) ((e.translate m).resolveIn .global d') := by
  have hresolve := e.follows_resolveIn h hd .global
  rwa [h.global] at hresolve

theorem Draft.follows_declare_global (hd : D d d') {name : String} (hname : named name)
    (entry : Entry) (complaint : Diagnostic) :
    (d.declare .global name entry complaint).Follows m strict D (Image id)
      (d'.declare .global (m.name name) (entry.translate m)
        (complaint.relabel m.toRelabelling)) := by
  have hdeclare := h.declare hd .global name entry complaint fun _ => hname
  rwa [h.global] at hdeclare

theorem TypeDeclaration.follows_declare {t : TypeDeclaration} (ht : named t.name)
    (hd : D d d') :
    (t.declare d).Follows m strict (Beside (TypeDeclaration.translate m) D) (Image id)
      ((t.translate m).declare d') := by
  refine (t.type.follows_resolveIn_global h hd).andThen ?_ ?_
  · rintro ⟨type, d⟩ ⟨_, d'⟩ ⟨rfl, hd⟩
    exact ⟨rfl, hd⟩
  · rintro ⟨type, d⟩ ⟨_, d'⟩ ty _ ⟨rfl, hd⟩ rfl
    refine (Draft.follows_declare_global h hd ht _ _).map ?_ fun _ _ ha => ha
    exact fun _ _ hd => ⟨rfl, hd⟩

theorem Parameter.follows_declare {scope : ScopeId}
    (hscope : scope = .global → ∀ name, named name) (p : Parameter) (hd : D d d') :
    (p.declare scope d).Follows m strict (Beside (Parameter.translate m) D)
      (Image (Formal.translate m)) ((p.translate m).declare (m.scope scope) d') := by
  refine (p.type.follows_resolveIn_global h hd).andThen ?_ ?_
  · rintro ⟨type, d⟩ ⟨_, d'⟩ ⟨rfl, hd⟩
    exact ⟨rfl, hd⟩
  · rintro ⟨type, d⟩ ⟨_, d'⟩ ty _ ⟨rfl, hd⟩ rfl
    dsimp only
    rw [Ty.isArray_translate, show (p.translate m).byReference = p.byReference from rfl]
    split
    · exact .error fun _ => ⟨_, ⟨rfl, hd⟩, rfl⟩
    · have hdeclare := h.declare hd scope p.name (.var ty p.byReference)
        ⟨.redeclarationAsParameter p.name, p.position⟩ fun hglobal => hscope hglobal _
      refine hdeclare.map ?_ fun _ _ _ => rfl
      exact fun _ _ hd => ⟨rfl, hd⟩

theorem LocalVariable.follows_declare {scope : ScopeId}
    (hscope : scope = .global → ∀ name, named name) (v : LocalVariable) (hd : D d d') :
    (v.declare scope d).Follows m strict (Beside (LocalVariable.translate m) D) (Image id)
      ((v.translate m).declare (m.scope scope) d') := by
  refine (v.type.follows_resolveIn h hd scope).andThen ?_ ?_
  · rintro ⟨type, d⟩ ⟨_, d'⟩ ⟨rfl, hd⟩
    exact ⟨rfl, hd⟩
  · rintro ⟨type, d⟩ ⟨_, d'⟩ ty _ ⟨rfl, hd⟩ rfl
    have hdeclare := h.declare hd scope v.name (.var ty false)
      ⟨.redeclarationAsVariable v.name, v.position⟩ fun hglobal => hscope hglobal _
    refine hdeclare.map ?_ fun _ _ ha => ha
    exact fun _ _ hd => ⟨rfl, hd⟩

theorem Procedure.follows_declare {p : Procedure} (hp : named p.name) (hd : D d d') :
    (p.declare d).Follows m strict (Beside (Procedure.translate m) D) (Image m.scope)
      ((p.translate m).declare d') := by
  obtain ⟨hlocal, hscope, hnest⟩ := h.nest hd
  rw [declare, declare]
  dsimp only
  rw [hscope]
  generalize (d.table.nest .global).2 = scope at hlocal ⊢
  refine (Follows.threadAll (fun q _ d d' hd => q.follows_declare h hlocal hd) hnest).andThen ?_ ?_
  · rintro ⟨parameters, d⟩ ⟨_, d'⟩ ⟨rfl, hd⟩
    exact ⟨rfl, hd⟩
  · rintro ⟨parameters, d⟩ ⟨_, d'⟩ formals _ ⟨rfl, hd⟩ rfl
    refine (Follows.threadAll (fun v _ d d' hd => v.follows_declare h hlocal hd) hd).andThen ?_ ?_
    · rintro ⟨locals, d⟩ ⟨_, d'⟩ ⟨rfl, hd⟩
      exact ⟨rfl, hd⟩
    · rintro ⟨locals, d⟩ ⟨_, d'⟩ _ _ ⟨rfl, hd⟩ -
      refine (Draft.follows_declare_global h hd hp _ _).map ?_ fun _ _ _ => rfl
      exact fun _ _ hd => ⟨rfl, hd⟩

theorem Declaration.follows_declare {options options' : Options}
    (hoptions : options'.phase = options.phase) {declaration : Declaration}
    (hdeclaration : named declaration.name) (hd : D d d') :
    (declaration.declare options d).Follows m strict (Beside (Declaration.translate m) D)
      (Image id) ((declaration.translate m).declare options' d') := by
  cases declaration with
  | type t =>
      rw [translate, declare, declare]
      refine (t.follows_declare h hdeclaration hd).map ?_ fun _ _ ha => ha
      rintro ⟨t, d⟩ ⟨_, d'⟩ ⟨rfl, hd⟩
      exact ⟨rfl, hd⟩
  | procedure p =>
      rw [translate, declare, declare]
      refine (p.follows_declare h hdeclaration hd).andThen ?_ ?_
      · rintro ⟨p, d⟩ ⟨_, d'⟩ ⟨rfl, hd⟩
        exact ⟨rfl, hd⟩
      · rintro ⟨p, d⟩ ⟨_, d'⟩ scope _ ⟨rfl, hd⟩ rfl
        dsimp only
        rw [Options.listsTables, Options.listsTables, hoptions]
        split
        · refine (h.list hd p scope).map ?_ fun _ _ ha => ha
          exact fun _ _ hd => ⟨rfl, hd⟩
        · exact .ok ⟨rfl, hd⟩ rfl

/-- Building the table of a program in translation follows building the table of
the program, if the tables at the start correspond. -/
theorem Program.follows_buildTable {options options' : Options}
    (hoptions : options'.phase = options.phase) {p : Program}
    (hp : ∀ d ∈ p.declarations, named d.name) (fresh fresh' : Nat) (output output' : Text.Sink)
    (hinitial : ∀ t t', SymbolTable.initial options.library = .ok t →
      SymbolTable.initial options'.library = .ok t' → D ⟨t, fresh, output⟩ ⟨t', fresh', output'⟩) :
    (p.buildTable options fresh output).Follows m strict (Beside (Program.translate m) D)
      (fun t t' => ∃ d d', D d d' ∧ d.table = t ∧ d'.table = t')
      ((p.translate m).buildTable options' fresh' output') := by
  obtain ⟨t, ht, -⟩ := SymbolTable.exists_initial options.library
  obtain ⟨t', ht', -⟩ := SymbolTable.exists_initial options'.library
  rw [buildTable, buildTable, ht, ht']
  refine (Follows.threadAll (fun d hd _ _ hdrafts => d.follows_declare h hoptions (hp d hd) hdrafts)
    (hinitial t t' ht ht')).andThen ?_ ?_
  · rintro ⟨declarations, d⟩ ⟨_, d'⟩ ⟨rfl, hd⟩
    exact ⟨rfl, hd⟩
  · rintro ⟨declarations, d⟩ ⟨_, d'⟩ _ _ ⟨rfl, hd⟩ -
    refine .of_result ⟨rfl, hd⟩ ?_
    exact ((h.table hd).entryPoint h.main h.null).map fun _ _ _ => ⟨d, d', hd, rfl, rfl⟩

end Declarations

/-! ### Other places -/

section Labels

variable {ρ : Relabelling}

theorem Relabelling.KeepsNames.renamed_table (h : ρ.KeepsNames) (t : SymbolTable) :
    SymbolTable.Renamed ρ t t where
  lookup _ name := by rw [h name]
  get _ name := by rw [h name]

theorem Relabelling.KeepsNames.follows_declare (h : ρ.KeepsNames) (d : Draft) (scope : ScopeId)
    (name : String) (entry : Entry) (complaint : Diagnostic) :
    (d.declare scope name entry complaint).Follows ρ.translation strict Eq (Image id)
      (d.declare scope (ρ.name name) entry (complaint.relabel ρ)) := by
  rw [h name]
  cases hs : d.table.scope scope with
  | error fault =>
      have hfault : ∀ complaint,
          d.declare scope name entry complaint = ⟨d, .error (.fault fault)⟩ :=
        fun _ => Draft.declare_of_error (SymbolTable.declare_of_fault hs)
      rw [hfault, hfault]
      refine .error fun _ => ⟨d, rfl, ?_⟩
      rw [Halt.translate, fault.translate_eq_self ρ.keepsTypes_translation]
  | ok s =>
      cases hget : s.get? name with
      | some taken =>
          have htaken : ∀ complaint, d.declare scope name entry complaint =
              ⟨d, .error (.diagnostic complaint)⟩ :=
            fun _ => Draft.declare_of_error (SymbolTable.declare_of_taken hs hget)
          rw [htaken, htaken]
          exact .error fun _ => ⟨d, rfl, rfl⟩
      | none =>
          have hfree : ∀ complaint, d.declare scope name entry complaint = _ :=
            fun _ => Draft.declare_of_ok (SymbolTable.declare_of_free hs hget)
          rw [hfree, hfree]
          exact .ok rfl rfl

theorem Relabelling.KeepsNames.follows_list (h : ρ.KeepsNames) (d : Draft) (p : Procedure)
    (scope : ScopeId) :
    (d.list p scope).Follows ρ.translation strict Eq (Image id)
      (d.list (p.translate ρ.translation) scope) := by
  refine Draft.follows_list rfl rfl (fun _ => rfl) (h p.name) rfl ?_
  cases d.table.listing scope with
  | ok listing => exact .ok rfl
  | error fault =>
      exact .error fun _ => by rw [fault.translate_eq_self ρ.keepsTypes_translation]

/-- Where names stay as they are, the drafts stay the same too. -/
theorem Relabelling.KeepsNames.simulation (h : ρ.KeepsNames) (hnull : ρ.place .null = .null) :
    Draft.Simulation ρ.translation strict (fun _ => True) Eq where
  global := rfl
  main := h "main"
  null := hnull
  table := by
    rintro d _ rfl
    exact (h.renamed_table d.table).follows
  identity := by
    rintro d _ rfl made
    rfl
  fresh := by
    rintro d _ rfl made
    rfl
  nest := by
    rintro d _ rfl
    exact ⟨fun _ _ => trivial, rfl, rfl⟩
  declare := by
    rintro d _ rfl scope name entry complaint -
    have hentry : entry.translate ρ.translation = entry :=
      entry.translate_eq_self ρ.keepsTypes_translation fun _ => rfl
    rw [hentry]
    exact h.follows_declare d scope name entry complaint
  list := by
    rintro d _ rfl p scope
    exact h.follows_list d p scope

/-- The table of a relabelled program is that of the given one, and so is the text of listings. -/
theorem Program.buildTable_relabel (h : ρ.KeepsNames) (hnull : ρ.place .null = .null)
    (options : Options) (p : Program) (fresh : Nat) (output : Text.Sink) :
    (p.relabel ρ).buildTable options fresh output =
      (p.buildTable options fresh output).relabel ρ (Prod.map (Program.relabel ρ) id) := by
  have hview : Program.translate ρ.translation = Program.relabel ρ :=
    funext (Program.translate_eq_relabel ρ.keepsTypes_translation)
  have hdrafts : Draft.Simulation ρ.translation True (fun _ => True) Eq := h.simulation hnull
  have hphase : options.phase = options.phase := rfl
  have hfollows := Program.follows_buildTable hdrafts hphase (p := p) (fun _ _ => trivial)
    fresh fresh output output fun t t' ht ht' => by rw [Except.ok.inj (ht.symm.trans ht')]
  rw [← hview]
  refine (hfollows.mono ?_ ?_).eq_relabel
  · rintro ⟨p, d⟩ ⟨_, _⟩ ⟨rfl, rfl⟩
    rfl
  · rintro _ _ ⟨d, _, rfl, rfl, rfl⟩
    rfl

end Labels

/-! ### Tables in translation -/

/-- The sink takes everything and never fails. -/
structure Text.Sink.Endless (s : Text.Sink) : Prop where
  room : s.room = none
  flush : s.flushFails = false

theorem Text.Sink.endless_unlimited : Text.Sink.unlimited.Endless :=
  ⟨rfl, rfl⟩

/-- The tables are in translation, the same identities are in use, and listings
can be written. -/
structure Draft.Translated (m : Translation) (extra : List Binding) (d d' : Draft) : Prop where
  table : d.table.Translated m extra d'.table
  fresh : d'.fresh = d.fresh
  output : d.output.Endless
  output' : d'.output.Endless

theorem Draft.list_of_endless {d : Draft} (houtput : d.output.Endless) (p : Procedure)
    {scope : ScopeId} {scopes : List Scope} (hchain : d.table.chain scope = .ok scopes) :
    ∃ output : Text.Sink, output.Endless ∧ d.list p scope = ⟨{ d with output }, .ok ()⟩ := by
  have hlisting : d.table.listing scope = .ok (listingOf scopes) := by
    rw [SymbolTable.listing, hchain]
    rfl
  obtain ⟨table, fresh, written, room, reason, flushFails⟩ := d
  obtain ⟨hroom, hflush⟩ := houtput
  dsimp only at hroom hflush
  subst hroom hflush
  rw [list, hlisting]
  exact ⟨_, ⟨rfl, rfl⟩, rfl⟩

namespace Draft.Translated

variable {extra : List Binding} {d d' : Draft}

theorem follows_declare (h : Draft.Translated m extra d d') (hm : m.Faithful) (scope : ScopeId)
    (name : String) (entry : Entry) (complaint : Diagnostic)
    (hname : scope = .global → m.name name ∉ extra.map Prod.fst) :
    (d.declare scope name entry complaint).Follows m strict (Draft.Translated m extra) (Image id)
      (d'.declare (m.scope scope) (m.name name) (entry.translate m)
        (complaint.relabel m.toRelabelling)) :=
  Draft.follows_declare h (fun _ _ htable => { h with table := htable })
    (h.table.follows_declare strict hm scope name entry complaint hname)

/-- What is written of a procedure is different, but it is written. -/
theorem follows_list (h : Draft.Translated m extra d d') (p p' : Procedure) (scope : ScopeId) :
    (d.list p scope).Follows m strict (Draft.Translated m extra) (Image id)
      (d'.list p' (m.scope scope)) := by
  cases hs : d.table.scope scope with
  | error fault =>
      have hid := (SymbolTable.scope_eq_error hs).2
      rw [list, list, SymbolTable.listing, SymbolTable.listing,
        h.table.flat.chain_of_size_le hid, h.table.flat'.chain_of_size_le (h.table.size_le hid)]
      exact .error fun _ => ⟨d', h, rfl⟩
  | ok s =>
      obtain ⟨s', hs', -⟩ := h.table.scope scope s hs
      obtain ⟨scopes, hchain⟩ := h.table.flat.exists_chain hs
      obtain ⟨scopes', hchain'⟩ := h.table.flat'.exists_chain hs'
      obtain ⟨output, houtput, hlist⟩ := list_of_endless h.output p hchain
      obtain ⟨output', houtput', hlist'⟩ := list_of_endless h.output' p' hchain'
      rw [hlist, hlist']
      exact .ok { h with output := houtput, output' := houtput' } rfl

/-- The operations of the builder keep tables in translation. If the comparison
is strict, no name may get one of the names that the second table binds besides. -/
theorem simulation (hm : m.Faithful) (hkeeps : m.KeepsTypes) (hmain : m.name "main" = "main")
    (hnull : m.place .null = .null)
    (hextra : strict → ∀ name, m.name name ∉ extra.map Prod.fst) :
    Draft.Simulation m strict (fun name => m.name name ∉ extra.map Prod.fst)
      (Draft.Translated m extra) where
  global := hm.global
  main := hmain
  null := hnull
  table h := h.table.follows hm hextra
  identity h made := by rw [hkeeps, h.fresh]
  fresh h made := { h with fresh := by rw [h.fresh] }
  nest {d d'} h := by
    obtain ⟨hscope, htable⟩ := h.table.nest
    refine ⟨fun hglobal => ?_, hscope, { h with table := htable }⟩
    have hsize : d.table.size = 0 := congrArg ScopeId.index hglobal
    exact absurd hsize (Nat.ne_of_gt h.table.flat.size_pos)
  declare h := h.follows_declare hm
  list h p scope := h.follows_list p _ scope

end Draft.Translated

end Spl
