import Mathlib.Data.List.Forall2
import Spl.Program.Table
import Spl.Proofs.Fresh
import Spl.Proofs.Scope.Regular

/-!
Building the table of a program. From a program without types the builder
never faults, each of its steps keeps the table regular, and it leaves the
names and the bodies of procedures alone.
-/

namespace Spl

/-! ### Types as they are written -/

theorem Context.settles_typeNamed {Γ : Context} (ht : Γ.table.Regular)
    (hscope : Γ.scope.index < Γ.table.size) (name : String) (position : Position) :
    Settles (Γ.typeNamed name position) Ty.Nameable := by
  obtain ⟨found, hlookup, hfound⟩ := lookup_of_valid (ht.valid hscope) name
  unfold typeNamed
  rw [show Γ.lookup name = _ from hlookup]
  match found, hfound with
  | some (.type ty), h => exact ht.entry_of_nearest ((h _).mp rfl)
  | some (.var _ _), _ => trivial
  | some (.procedure _), _ => trivial
  | none, _ => trivial

theorem TypeExpr.settles_resolve {Γ : Context} (ht : Γ.table.Regular)
    (hscope : Γ.scope.index < Γ.table.size) (e : TypeExpr) (he : e.Fresh) (fresh : Nat) :
    (e.resolve Γ fresh).Settles fun _ ty => ty.Nameable := by
  induction e with
  | named name position slot =>
      obtain rfl := he
      have hname := Context.settles_typeNamed ht hscope name position
      rw [resolve]
      split
      · next ty hty => exact hname.of_ok hty
      · next halt hhalt =>
          rw [hhalt] at hname
          exact Outcome.Settles.error hname _
  | array size element position slot ih =>
      obtain ⟨helement, rfl⟩ := he
      apply Outcome.Settles.andThen
      apply Outcome.Settles.mono (ih helement)
      rintro ⟨element', fresh'⟩ ty hty
      exact hty

theorem TypeExpr.settles_resolveIn {d : Draft} (ht : d.table.Regular) {scope : ScopeId}
    (hscope : scope.index < d.table.size) {e : TypeExpr} (he : e.Fresh) :
    (e.resolveIn scope d).Settles fun after ty => after.2.table = d.table ∧ ty.Nameable := by
  apply Outcome.Settles.map
  apply Outcome.Settles.mono (TypeExpr.settles_resolve (Γ := ⟨d.table, scope⟩) ht hscope e he _)
  exact fun after ty hty => ⟨rfl, hty⟩

/-! ### Declarations -/

/-- A draft into whose scope a procedure is being entered. -/
structure Draft.Open (scope : ScopeId) (d : Draft) : Prop where
  regular : d.table.Regular
  scope_lt : scope.index < d.table.size

theorem Draft.Open.of_table_eq {scope : ScopeId} {d d' : Draft} (h : d.Open scope)
    (htable : d'.table = d.table) : d'.Open scope :=
  ⟨htable ▸ h.regular, htable ▸ h.scope_lt⟩

/-- Declaring a name in any scope of a draft keeps every open scope open. -/
theorem Draft.Open.settles_declare {scope : ScopeId} {d : Draft} (h : d.Open scope) {id : ScopeId}
    (hid : id.index < d.table.size) (name : String) {entry : Entry}
    (hentry : entry.Regular d.table.size) (complaint : Diagnostic) :
    (d.declare id name entry complaint).Settles fun after _ => after.Open scope := by
  have hdeclare := h.regular.settles_declare hid name hentry complaint
  cases htable : d.table.declare id name entry complaint with
  | ok table =>
      obtain ⟨hregular, hsize⟩ := hdeclare.of_ok htable
      rw [Draft.declare_of_ok htable]
      exact ⟨hregular, hsize ▸ h.scope_lt⟩
  | error halt =>
      rw [htable] at hdeclare
      rw [Draft.declare_of_error htable]
      exact Outcome.Settles.error hdeclare _

theorem TypeDeclaration.settles_declare {d : Draft} (h : d.Open .global) {t : TypeDeclaration}
    (hfresh : t.type.Fresh) : (t.declare d).Settles fun after _ => after.2.Open .global := by
  apply Outcome.Settles.andThen
  apply Outcome.Settles.mono (TypeExpr.settles_resolveIn h.regular h.scope_lt hfresh)
  rintro ⟨type, d'⟩ ty ⟨htable, hty⟩
  have hd' := h.of_table_eq htable
  apply Outcome.Settles.map
  exact hd'.settles_declare hd'.scope_lt t.name
    (show (Entry.type ty).Regular _ from hty) _

theorem Parameter.settles_declare {scope : ScopeId} {d : Draft} (h : d.Open scope)
    {p : Parameter} (hfresh : p.type.Fresh) :
    (p.declare scope d).Settles fun after formal => after.2.Open scope ∧ formal.Regular := by
  apply Outcome.Settles.andThen
  apply Outcome.Settles.mono (TypeExpr.settles_resolveIn h.regular h.regular.size_pos hfresh)
  rintro ⟨type, d'⟩ ty ⟨htable, hty⟩
  have hd' := h.of_table_eq htable
  dsimp only
  split
  · trivial
  · next hreference =>
      apply Outcome.Settles.map
      apply Outcome.Settles.mono
        (hd'.settles_declare hd'.scope_lt p.name
          (show (Entry.var ty p.byReference).Regular _ from hty) _)
      intro after _ hafter
      refine ⟨hafter, hty, fun harray => ?_⟩
      simpa [show ty.isArray = true from harray] using hreference

theorem LocalVariable.settles_declare {scope : ScopeId} {d : Draft} (h : d.Open scope)
    {v : LocalVariable} (hfresh : v.type.Fresh) :
    (v.declare scope d).Settles fun after _ => after.2.Open scope := by
  apply Outcome.Settles.andThen
  apply Outcome.Settles.mono (TypeExpr.settles_resolveIn h.regular h.scope_lt hfresh)
  rintro ⟨type, d'⟩ ty ⟨htable, hty⟩
  have hd' := h.of_table_eq htable
  apply Outcome.Settles.map
  exact hd'.settles_declare hd'.scope_lt v.name
    (show (Entry.var ty false).Regular _ from hty) _

/-- The same procedure, but for the types that were written into it. -/
structure Procedure.SameBody (p after : Procedure) : Prop where
  name_eq : after.name = p.name
  body_eq : after.body = p.body

theorem Procedure.settles_declare {d : Draft} (h : d.Open .global) {p : Procedure}
    (hfresh : p.Fresh) :
    (p.declare d).Settles fun after scope =>
      after.2.Open .global ∧ scope.index < after.2.table.size ∧ p.SameBody after.1 := by
  have hopen :
      Draft.Open (d.table.nest .global).2 { d with table := (d.table.nest .global).1 } := by
    refine ⟨h.regular.nest, ?_⟩
    rw [SymbolTable.size_nest]
    exact Nat.lt_succ_self _
  rw [Procedure.declare]
  -- The new scope stays open while parameters and variables are entered into it.
  generalize d.table.nest .global = nested at hopen ⊢
  obtain ⟨table, scope⟩ := nested
  apply Outcome.Settles.andThen
  apply Outcome.Settles.mono (Outcome.Settles.threadAll
    (R := fun _ _ formals => ∀ f ∈ formals, Formal.Regular f) hopen (by simp) ?_)
  · rintro ⟨parameters, d₁⟩ formals ⟨hopen₁, hformals⟩
    apply Outcome.Settles.andThen
    apply Outcome.Settles.mono
      (Outcome.Settles.threadAll (R := fun _ _ _ => True) hopen₁ trivial ?_)
    · rintro ⟨locals, d₂⟩ - ⟨hopen₂, -⟩
      have hglobal : Draft.Open .global d₂ := ⟨hopen₂.regular, hopen₂.regular.size_pos⟩
      have hentry : (Entry.procedure ⟨scope, formals⟩).Regular d₂.table.size :=
        ⟨hopen₂.scope_lt, hformals⟩
      apply Outcome.Settles.map
      apply Outcome.Settles.mono (hopen₂.settles_declare hglobal.scope_lt p.name hentry _)
      exact fun d₃ _ hopen₃ =>
        ⟨⟨hopen₃.regular, hopen₃.regular.size_pos⟩, hopen₃.scope_lt, rfl, rfl⟩
    · intro v vs d' hv hd'
      apply Outcome.Settles.mono (LocalVariable.settles_declare hd' (hfresh.locals v hv))
      exact fun after _ hafter => ⟨hafter, fun _ _ _ => trivial⟩
  · intro q qs d' hq hd'
    apply Outcome.Settles.mono (Parameter.settles_declare hd' (hfresh.parameters q hq))
    exact fun after formal hafter =>
      ⟨hafter.1, fun _ _ hrest => List.forall_mem_cons.mpr ⟨hafter.2, hrest⟩⟩

theorem Draft.settles_list {d : Draft} {scope : ScopeId} (h : d.Open scope) (p : Procedure) :
    (d.list p scope).Settles fun after _ => after.table = d.table := by
  obtain ⟨scopes, hchain⟩ := SymbolTable.exists_chain h.regular.grounded h.scope_lt
  have hlisting : d.table.listing scope = .ok (listingOf scopes) := by
    rw [SymbolTable.listing, hchain]
    rfl
  rw [Draft.list, hlisting]
  change Settles (if _ then _ else _) _
  split
  · rfl
  · trivial

theorem Declaration.settles_declare (options : Options) {d : Draft} (h : d.Open .global)
    {declaration : Declaration} (hfresh : declaration.Fresh) :
    (declaration.declare options d).Settles fun after _ => after.2.Open .global ∧
      Option.Rel Procedure.SameBody declaration.procedure? after.1.procedure? := by
  cases declaration with
  | type t =>
      rw [Declaration.declare]
      apply Outcome.Settles.map
      apply Outcome.Settles.mono (TypeDeclaration.settles_declare h hfresh)
      exact fun after _ hafter => ⟨hafter, .none⟩
  | procedure p =>
      rw [Declaration.declare]
      apply Outcome.Settles.andThen
      apply Outcome.Settles.mono (Procedure.settles_declare h hfresh)
      rintro ⟨p', d'⟩ scope ⟨hd', hscope, hsame⟩
      dsimp only
      split
      · apply Outcome.Settles.map
        apply Outcome.Settles.mono (Draft.settles_list ⟨hd'.regular, hscope⟩ p')
        exact fun after _ htable => ⟨hd'.of_table_eq htable, .some hsame⟩
      · exact ⟨hd', .some hsame⟩

/-! ### Programs -/

theorem SymbolTable.Regular.settles_entryPoint {t : SymbolTable} (ht : t.Regular) :
    Settles t.entryPoint fun _ => True := by
  obtain ⟨found, hfound⟩ : ∃ found, t.get .global "main" = .ok found := exists_get ht.size_pos _
  rw [entryPoint, hfound]
  match found with
  | none => trivial
  | some (.type _) => trivial
  | some (.var _ _) => trivial
  | some (.procedure signature) =>
      change Settles (if _ then _ else _) _
      split <;> trivial

/-- The builder never faults on a program without types. It makes a regular
table and leaves the bodies as they are. -/
theorem Program.settles_buildTable (options : Options) {p : Program} (hfresh : p.Fresh)
    (fresh : Nat) (output : Text.Sink) :
    (p.buildTable options fresh output).Settles fun after table =>
      table.Regular ∧ List.Forall₂ Procedure.SameBody p.procedures after.1.procedures := by
  have hinitial := SymbolTable.settles_initial options.library
  rw [Program.buildTable]
  split
  · next halt hhalt =>
      rw [hhalt] at hinitial
      exact Outcome.Settles.error hinitial _
  · next table htable =>
      have hregular := hinitial.of_ok htable
      have hopen : Draft.Open .global ⟨table, fresh, output⟩ := ⟨hregular, hregular.size_pos⟩
      apply Outcome.Settles.andThen
      apply Outcome.Settles.mono (Outcome.Settles.threadAll (R := fun ds after _ =>
        List.Forall₂ (fun d d' => Option.Rel Procedure.SameBody d.procedure? d'.procedure?) ds
          after)
        hopen .nil ?_)
      · rintro ⟨declarations, d⟩ - ⟨hd, hsame⟩
        apply Settles.map
        apply Settles.mono hd.regular.settles_entryPoint
        exact fun _ _ => ⟨hd.regular, List.rel_filterMap (fun d d' h => h) hsame⟩
      · intro declaration ds d hdeclaration hd
        apply Outcome.Settles.mono
          (Declaration.settles_declare options hd (hfresh declaration hdeclaration))
        exact fun after _ hafter => ⟨hafter.1, fun _ _ hrest => .cons hafter.2 hrest⟩

end Spl
