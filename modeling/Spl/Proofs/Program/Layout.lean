import Mathlib.Data.List.Forall2
import Mathlib.Logic.ExistsUnique
import Spl.Proofs.Phases
import Spl.Proofs.Program.Entering

/-!
The layout of built tables. Around the scopes of the procedures there is the
global scope. It binds types and procedures, each scope in it belongs to one
procedure, and it binds the parameters and variables of that procedure as its
signature has them. Booleans are nowhere, and arrays are passed by reference.
-/

namespace Spl

open Outcome

/-! ### What the layout is -/

/-- The types that an entry mentions. -/
def Entry.types : Entry → List Ty
  | type ty => [ty]
  | var ty _ => [ty]
  | procedure signature => signature.formals.map Formal.ty

/-- The scope binds the parameters and variables of the procedure, with the
types that were found for them, and nothing else. The parameters are bound as
the signature has them. -/
structure Procedure.OwnsScope (p : Procedure) (signature : Signature) (s : Scope) : Prop where
  parameters : List.Forall₂ (fun q formal => formal.ty = q.type.found ∧
    formal.byReference = q.byReference ∧
      s.get? q.name = some (.var formal.ty formal.byReference)) p.parameters signature.formals
  locals : ∀ v ∈ p.locals, s.get? v.name = some (.var v.type.found false)
  name_iff : ∀ name, (∃ entry, s.get? name = some entry) ↔ name ∈ p.localNames
  nodup : p.localNames.Nodup
  size_eq : s.size = p.parameters.length + p.locals.length

/-- The layout of a table that was built for the program. -/
structure SymbolTable.LaidOut (table : SymbolTable) (library : Library) (p : Program) : Prop where
  size_eq : table.size = 1 + library.procedures.length + p.procedures.length
  parent : ∀ id s, table.scope id = .ok s →
    s.parent = if id = .global then none else some .global
  global_entry : ∀ name entry, table.get .global name = .ok (some entry) →
    (∃ ty, entry = .type ty) ∨ ∃ signature, entry = .procedure signature
  local_entry : ∀ id name entry, id ≠ .global → table.get id name = .ok (some entry) →
    ∃ ty byReference, entry = .var ty byReference
  global_name : ∀ name, (∃ entry, table.get .global name = .ok (some entry)) ↔
    name = "int" ∨ name ∈ library.names ∨ name ∈ p.declarations.map Declaration.name
  /-- Every scope but the global one belongs to exactly one procedure. -/
  owner : ∀ id s, table.scope id = .ok s →
    if id = .global then
      ¬∃ name formals, table.get .global name = .ok (some (.procedure ⟨id, formals⟩))
    else ∃! name, ∃ formals, table.get .global name = .ok (some (.procedure ⟨id, formals⟩))
  int : table.get .global "int" = .ok (some (.type .int))
  libraryProcedure : ∀ q ∈ library.procedures, ∃ id s,
    table.get .global q.name = .ok (some (.procedure ⟨id, q.formals⟩)) ∧
      table.scope id = .ok s ∧ s.isEmpty = true
  procedure : ∀ q ∈ p.procedures, ∃ signature s,
    table.get .global q.name = .ok (some (.procedure signature)) ∧
      table.scope signature.scope = .ok s ∧ q.OwnsScope signature s
  type : ∀ t, .type t ∈ p.declarations → table.get .global t.name = .ok (some (.type t.type.found))
  resolved : ∀ d ∈ p.declarations, ∀ e ∈ d.typeExprs,
    e.Resolved (Context.NamesType ⟨table, .global⟩) e.found
  byReference : ∀ name signature, table.get .global name = .ok (some (.procedure signature)) →
    ∀ formal ∈ signature.formals, formal.ty.isArray = true → formal.byReference = true
  nameable : ∀ id name entry, table.get id name = .ok (some entry) →
    ∀ ty ∈ entry.types, ty.Nameable

/-! ### What the contents of tables keep -/

/-- The number of the scope that a binding owns, if it is that of a procedure. -/
def Binding.owned? : Binding → Option Nat
  | (_, .procedure signature) => some signature.scope.index
  | _ => none

/-- Globally there are types and procedures, whose scopes are those of the
table in their order, and locally there are variables. None has booleans, and
parameters that are arrays are references. -/
structure Contents.Orderly (c : Contents) : Prop where
  globals : ∀ b ∈ c.globals, (∃ ty, b.2 = .type ty ∧ ty.Nameable) ∨
    ∃ signature, b.2 = .procedure signature ∧ ∀ formal ∈ signature.formals, formal.Regular
  locals : ∀ bindings ∈ c.locals, ∀ b ∈ bindings,
    ∃ ty byReference, b.2 = .var ty byReference ∧ ty.Nameable
  owned : c.globals.filterMap Binding.owned? = List.range' 1 c.locals.length

namespace Contents.Orderly

variable {c : Contents} {name : String}

theorem nameable (h : c.Orderly) {ty : Ty} (hty : c.NamesType name ty) : ty.Nameable := by
  cases h.globals _ hty with
  | inl htype =>
      obtain ⟨ty', hentry, hnameable⟩ := htype
      cases hentry
      exact hnameable
  | inr hprocedure =>
      obtain ⟨signature, hentry, -⟩ := hprocedure
      cases hentry

theorem addType (h : c.Orderly) {ty : Ty} (hty : ty.Nameable) : (c.addType name ty).Orderly := by
  refine ⟨?_, h.locals, ?_⟩
  · exact List.forall_mem_append.mpr
      ⟨h.globals, List.forall_mem_singleton.mpr (.inl ⟨ty, rfl, hty⟩)⟩
  · simpa [Contents.addType, List.filterMap_cons, Binding.owned?] using h.owned

theorem addProcedure (h : c.Orderly) {formals : List Formal} (hformals : ∀ f ∈ formals, f.Regular)
    {bindings : List Binding}
    (hbindings : ∀ b ∈ bindings, ∃ ty byReference, b.2 = .var ty byReference ∧ ty.Nameable) :
    (c.addProcedure name formals bindings).Orderly := by
  refine ⟨?_, ?_, ?_⟩
  · exact List.forall_mem_append.mpr
      ⟨h.globals, List.forall_mem_singleton.mpr (.inr ⟨_, rfl, hformals⟩)⟩
  · exact List.forall_mem_append.mpr ⟨h.locals, List.forall_mem_singleton.mpr hbindings⟩
  · simp [Contents.addProcedure, Binding.owned?, h.owned, List.range'_concat, Nat.add_comm]

theorem library (library : Library) : library.contents.Orderly := by
  apply Library.contents_induction
  · refine ⟨?_, ?_, rfl⟩
    · exact List.forall_mem_singleton.mpr (.inl ⟨.int, rfl, trivial⟩)
    · exact fun _ h => absurd h List.not_mem_nil
  · intro c p _ h
    apply h.addProcedure
    · intro formal hformal
      obtain ⟨byReference, -, rfl⟩ := List.mem_map.mp hformal
      exact ⟨trivial, fun harray => absurd harray Bool.false_ne_true⟩
    · exact fun _ h => absurd h List.not_mem_nil

theorem enters (h : c.Orderly) {c' : Contents} {d : Declaration} (hd : Enters c d c') :
    c'.Orderly := by
  have hmeans : ∀ name ty, c.NamesType name ty → ty.Nameable := fun _ _ => h.nameable
  cases hd with
  | type htype => exact h.addType (htype.nameable hmeans)
  | @procedure p hdeclared =>
      have hlocals : ∀ v ∈ p.locals, v.type.found.Nameable := by
        intro v hv
        obtain ⟨before, after, hsplit⟩ := List.append_of_mem hv
        exact (hdeclared.locals before v after hsplit).nameable fun _ _ hty => h.nameable hty.1
      apply h.addProcedure
      · intro formal hformal
        obtain ⟨q, hq, rfl⟩ := List.mem_map.mp hformal
        obtain ⟨hresolved, hreference⟩ := hdeclared.parameters q hq
        exact ⟨hresolved.nameable hmeans, hreference⟩
      · intro b hb
        cases List.mem_append.mp hb with
        | inl hparameter =>
            obtain ⟨q, hq, rfl⟩ := List.mem_map.mp hparameter
            exact ⟨_, _, rfl, (hdeclared.parameters q hq).1.nameable hmeans⟩
        | inr hlocal =>
            obtain ⟨v, hv, rfl⟩ := List.mem_map.mp hlocal
            exact ⟨_, _, rfl, hlocals v hv⟩

theorem entered (h : c.Orderly) {c' : Contents} {ds : List Declaration} (hds : Entered c ds c') :
    c'.Orderly := by
  induction hds with
  | nil => exact h
  | cons hd _ ih => exact ih (h.enters hd)

/-- Each scope has one owner. -/
theorem existsUnique_owner (h : c.Orderly) {i : Nat} (hi : i < c.locals.length) :
    ∃! name, ∃ formals, (name, .procedure ⟨⟨i + 1⟩, formals⟩) ∈ c.globals := by
  have hmem : i + 1 ∈ c.globals.filterMap Binding.owned? := by
    rw [h.owned, List.mem_range'_1]
    omega
  obtain ⟨⟨name, entry⟩, hb, howned⟩ := List.mem_filterMap.mp hmem
  cases entry with
  | type ty => cases howned
  | var ty byReference => cases howned
  | procedure signature =>
      obtain ⟨⟨index⟩, formals⟩ := signature
      obtain rfl : index = i + 1 := Option.some.inj howned
      refine ⟨name, ⟨formals, hb⟩, ?_⟩
      rintro other ⟨formals', hother⟩
      have hnodup : (c.globals.filterMap Binding.owned?).Nodup := by
        rw [h.owned]
        exact List.nodup_range'
      obtain ⟨j, hj⟩ := List.mem_iff_getElem?.mp hb
      obtain ⟨j', hj'⟩ := List.mem_iff_getElem?.mp hother
      obtain rfl := index_unique_of_nodup_filterMap hnodup hj hj' rfl rfl
      exact congrArg Prod.fst (Option.some.inj (hj'.symm.trans hj))

end Contents.Orderly

/-! ### Built tables are laid out so -/

theorem Procedure.ownsScope {p : Procedure} {s : Scope} (hs : s.Binds p.bindings)
    (scope : ScopeId) :
    p.OwnsScope ⟨scope, p.formals⟩ s := by
  have hget : ∀ name entry, (name, entry) ∈ p.bindings → s.get? name = some entry :=
    fun _ _ => hs.get?_eq_some_iff.mpr
  refine ⟨?_, ?_, ?_, ?_, ?_⟩
  · rw [formals, List.forall₂_map_right_iff, List.forall₂_same]
    intro q hq
    exact ⟨rfl, rfl, hget _ _ (List.mem_append_left _ (List.mem_map_of_mem hq))⟩
  · intro v hv
    exact hget _ _ (List.mem_append_right _ (List.mem_map_of_mem hv))
  · intro name
    rw [← map_fst_bindings, List.mem_map]
    simp [hs.get?_eq_some_iff]
  · rw [← map_fst_bindings]
    exact hs.nodup
  · rw [Scope.size, hs.perm.length_eq, bindings]
    simp

section Built

variable {c : Contents} {table : SymbolTable} {library : Library} {p : Program}

theorem SymbolTable.Holds.local_entry (ht : table.Holds c.scopes) (hc : c.Orderly) {id : ScopeId}
    {name : String} {entry : Entry} (hid : id ≠ .global)
    (hname : table.get id name = .ok (some entry)) :
    ∃ ty byReference, entry = .var ty byReference ∧ ty.Nameable := by
  obtain ⟨s, hs, hget⟩ := SymbolTable.get_eq_ok_some_iff.mp hname
  obtain ⟨i, bindings, -, hi, hbinds⟩ := ht.of_local_scope hid hs
  exact hc.locals bindings (List.mem_of_getElem? hi) _ (hbinds.get?_eq_some_iff.mp hget)

theorem SymbolTable.Holds.owner (ht : table.Holds c.scopes) (hc : c.Orderly) {id : ScopeId}
    {s : Scope} (hs : table.scope id = .ok s) :
    if id = .global then
      ¬∃ name formals, table.get .global name = .ok (some (.procedure ⟨id, formals⟩))
    else ∃! name, ∃ formals, table.get .global name = .ok (some (.procedure ⟨id, formals⟩)) := by
  have hget : ∀ name entry, table.get .global name = .ok (some entry) ↔ (name, entry) ∈ c.globals :=
    fun _ _ => ht.get_global_iff
  simp only [hget]
  split
  · next hid =>
      rintro ⟨name, formals, hmem⟩
      rw [hid] at hmem
      have howned : 0 ∈ c.globals.filterMap Binding.owned? := List.mem_filterMap.mpr ⟨_, hmem, rfl⟩
      rw [hc.owned, List.mem_range'_1] at howned
      omega
  · next hid =>
      obtain ⟨i, bindings, rfl, hi, -⟩ := ht.of_local_scope hid hs
      exact hc.existsUnique_owner (List.getElem?_eq_some_iff.mp hi).1

theorem SymbolTable.Holds.nameable (ht : table.Holds c.scopes) (hc : c.Orderly) {id : ScopeId}
    {name : String} {entry : Entry} (hname : table.get id name = .ok (some entry)) :
    ∀ ty ∈ entry.types, ty.Nameable := by
  by_cases hid : id = .global
  · subst hid
    obtain ⟨ty, rfl, hty⟩ | ⟨signature, rfl, hformals⟩ :=
      hc.globals _ (ht.get_global_iff.mp hname)
    · exact List.forall_mem_singleton.mpr hty
    · intro ty hty
      obtain ⟨formal, hformal, rfl⟩ := List.mem_map.mp hty
      exact (hformals formal hformal).nameable
  · obtain ⟨ty, byReference, rfl, hty⟩ := ht.local_entry hc hid hname
    exact List.forall_mem_singleton.mpr hty

theorem Entered.libraryProcedure (h : Entered library.contents p.declarations c)
    (ht : table.Holds c.scopes) {q : LibraryProcedure} (hq : q ∈ library.procedures) :
    ∃ id s, table.get .global q.name = .ok (some (.procedure ⟨id, q.formals⟩)) ∧
      table.scope id = .ok s ∧ s.isEmpty = true := by
  obtain ⟨i, hmem, hi⟩ := library.exists_procedure hq
  have hi' : c.locals[i]? = some [] := by
    rw [h.locals_eq, List.getElem?_append_left (List.getElem?_eq_some_iff.mp hi).1]
    exact hi
  obtain ⟨s, hs, -, hbinds⟩ := ht.scope (i + 1) [] hi'
  refine ⟨⟨i + 1⟩, s, ht.get_global_iff.mpr (h.mem_globals hmem), hs, ?_⟩
  rw [Scope.isEmpty, List.isEmpty_iff]
  exact hbinds.perm.eq_nil

theorem Entered.procedure (h : Entered library.contents p.declarations c)
    (ht : table.Holds c.scopes) {q : Procedure} (hq : q ∈ p.procedures) :
    ∃ signature s, table.get .global q.name = .ok (some (.procedure signature)) ∧
      table.scope signature.scope = .ok s ∧ q.OwnsScope signature s := by
  obtain ⟨i, hmem, hi, -⟩ := h.exists_procedure (Program.mem_procedures_iff.mp hq)
  obtain ⟨s, hs, -, hbinds⟩ := ht.scope (i + 1) _ hi
  exact ⟨_, s, ht.get_global_iff.mpr hmem, hs, Procedure.ownsScope hbinds _⟩

theorem laidOut_of_entered (h : Entered library.contents p.declarations c)
    (ht : table.Holds c.scopes) : table.LaidOut library p := by
  have hc : c.Orderly := (Contents.Orderly.library library).entered h
  have hget : ∀ name entry, table.get .global name = .ok (some entry) ↔ (name, entry) ∈ c.globals :=
    fun _ _ => ht.get_global_iff
  constructor
  case size_eq =>
    rw [ht.size_eq, Contents.scopes, List.length_cons, h.locals_eq, List.length_append,
      library.length_locals_contents, List.length_map, Program.procedures]
    omega
  case parent => exact fun id s => ht.parent
  case global_entry =>
    intro name entry hname
    obtain ⟨ty, hty, -⟩ | ⟨signature, hsignature, -⟩ := hc.globals _ ((hget name entry).mp hname)
    · exact .inl ⟨ty, hty⟩
    · exact .inr ⟨signature, hsignature⟩
  case local_entry =>
    intro id name entry hid hname
    obtain ⟨ty, byReference, hvar, -⟩ := ht.local_entry hc hid hname
    exact ⟨ty, byReference, hvar⟩
  case global_name =>
    intro name
    have hnames : (∃ entry, (name, entry) ∈ c.globals) ↔ name ∈ c.names := by
      simp [Contents.names]
    simp only [hget]
    rw [hnames, h.names_eq, library.names_contents, List.mem_append, List.mem_cons, or_assoc]
  case owner => exact fun id s => ht.owner hc
  case int => exact (hget _ _).mpr (h.mem_globals (library.namesType_contents.mpr ⟨rfl, rfl⟩))
  case libraryProcedure => exact fun q => h.libraryProcedure ht
  case procedure => exact fun q => h.procedure ht
  case type => exact fun t ht' => (hget _ _).mpr (h.mem_type ht').1
  case resolved =>
    intro d hd e he
    exact (Declaration.resolved_of_entered h hd e he).mono fun _ _ => ht.nearest_global_iff.mpr
  case byReference =>
    intro name signature hname
    obtain ⟨ty, hentry, -⟩ | ⟨signature', hentry, hformals⟩ := hc.globals _ ((hget _ _).mp hname)
    · cases hentry
    · cases hentry
      exact fun formal hformal => (hformals formal hformal).byReference
  case nameable => exact fun id name entry => ht.nameable hc

end Built

/-- The builder leaves the program as it was, but for the types that it has
found, and lays the table out for it. -/
theorem laidOut_of_buildTable {options : Options} {p : Program} {fresh : Nat}
    {output : Text.Sink} {table : SymbolTable}
    (h : (p.buildTable options fresh output).result = .ok table) :
    let built := (p.buildTable options fresh output).after.1
    built.eraseTypes = p.eraseTypes ∧ table.LaidOut options.library built := by
  obtain ⟨built, d, c, hyields, hentered, hholds, -, -⟩ := Program.entered_of_buildTable h
  have hafter : (p.buildTable options fresh output).after.1 = built :=
    congrArg Prod.fst hyields.after_eq
  rw [hafter]
  exact ⟨(p.leaves_buildTable options fresh output).of_yields hyields,
    laidOut_of_entered hentered hholds⟩

/-- A program with an array behind an alias, which is a parameter and a
variable. -/
theorem laidOut_alias : ∃ tokens rest p table,
    tokenize "type V = array [2] of int;
      type W = V;
      proc f(i: int, ref a: W) \x7b var b: array [3] of W; \x7d
      proc main() \x7b var a: V; f(1, a); \x7d" (some "a.spl") = .ok tokens ∧
    parse "a.spl" tokens = .ok p rest ∧
    (p.buildTable .default 0 .unlimited).result = .ok table ∧
    table.LaidOut .graphics (p.buildTable .default 0 .unlimited).after.1 := by
  have haccepted : (analyze "type V = array [2] of int;
      type W = V;
      proc f(i: int, ref a: W) \x7b var b: array [3] of W; \x7d
      proc main() \x7b var a: V; f(1, a); \x7d"
      "a.spl" .default).result.toOption.isSome = true := by
    decide +kernel
  obtain ⟨after, table, hanalyze⟩ := exists_analyze_eq_ok haccepted
  obtain ⟨tokens, rest, p, hphases, -⟩ := phases_of_analyze hanalyze
  exact ⟨tokens, rest, p, table, hphases.tokenize_eq, hphases.parse_eq, hphases.buildTable_eq,
    (laidOut_of_buildTable hphases.buildTable_eq).2⟩

end Spl
