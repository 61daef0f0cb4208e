import Mathlib.Data.List.Forall2
import Spl.Proofs.Annotation.Blank
import Spl.Proofs.Program.Listing
import Spl.Proofs.Program.Moving

/-!
Procedures may be declared in any later place. If both passes finish on a
program, they finish on the program with a procedure moved behind others, with
the same types in other places and other numbers.
-/

namespace Spl

open Outcome

/-- The program with the declaration at `i` behind the `n` declarations that follow it. -/
def Program.moveLater (p : Program) (i n : Nat) : Program :=
  ⟨Spl.moveLater i n p.declarations, p.span⟩

/-- Both passes finish: the first one with the table, and the second one with the
program with all its types. -/
def Program.Passes (p : Program) (options : Options) (fresh : Nat) (output : Text.Sink)
    (checked : Program) (table : SymbolTable) : Prop :=
  ∃ built d, (p.buildTable options fresh output).Yields (built, d) table ∧
    (built.check table).Yields checked ()

/-! ### Checking in another order -/

theorem Outcome.exists_yields_visitAll_iff {ν : Type} {visit : ν → Outcome ν Unit}
    {xs ys : List ν} :
    (∃ answers, (visitAll visit xs).Yields ys answers) ↔
      List.Forall₂ (fun x y => (visit x).Yields y ()) xs ys := by
  induction xs generalizing ys with
  | nil =>
      rw [List.forall₂_nil_left_iff]
      constructor
      · rintro ⟨_, h⟩
        exact (yields_ok_iff.mp h).1.symm
      · rintro rfl
        exact ⟨[], rfl⟩
  | cons x xs ih =>
      rw [List.forall₂_cons_left_iff]
      constructor
      · rintro ⟨_, h⟩
        obtain ⟨y, _, hfirst, hrest⟩ := yields_andThen_iff.mp h
        obtain ⟨ys, answers, hothers, rfl, -⟩ := yields_map_iff.mp hrest
        exact ⟨y, ys, hfirst, ih.mp ⟨answers, hothers⟩, rfl⟩
      · rintro ⟨y, ys, hfirst, hrest, rfl⟩
        obtain ⟨answers, hothers⟩ := ih.mpr hrest
        exact ⟨() :: answers, yields_andThen_iff.mpr
          ⟨y, (), hfirst, yields_map_iff.mpr ⟨ys, answers, hothers, rfl, rfl⟩⟩⟩

theorem Program.yields_check_iff {table : SymbolTable} {p checked : Program} :
    (p.check table).Yields checked () ↔ checked.span = p.span ∧
      List.Forall₂ (fun d d' => (d.check table).Yields d' ()) p.declarations
        checked.declarations := by
  rw [check, yields_map_iff, ← exists_yields_visitAll_iff]
  constructor
  · rintro ⟨ds, answers, h, rfl, -⟩
    exact ⟨rfl, answers, h⟩
  · rintro ⟨hspan, answers, h⟩
    exact ⟨_, answers, h, congrArg (Program.mk checked.declarations) hspan.symm, rfl⟩

theorem forall₂_moveLater {α β : Type} {R : α → β → Prop} {xs : List α} {ys : List β}
    (h : List.Forall₂ R xs ys) (i n : Nat) :
    List.Forall₂ R (moveLater i n xs) (moveLater i n ys) :=
  List.rel_append (List.forall₂_take i h) <|
    List.rel_append (List.forall₂_take n (List.forall₂_drop (i + 1) h)) <|
      List.rel_append (List.forall₂_take 1 (List.forall₂_drop i h))
        (List.forall₂_drop (i + 1 + n) h)

/-- Where a table is in translation, bodies that are checked to their end are so
in translation too. -/
theorem Program.yields_check_move {m : Translation} (hm : m.Faithful) {table table' : SymbolTable}
    (htable : table.Translated m [] table') {p checked : Program}
    (h : (p.check table).Yields checked ()) (i n : Nat) :
    (((p.moveLater i n).translate m).check table').Yields
      ((checked.moveLater i n).translate m) () := by
  obtain ⟨hspan, hdeclarations⟩ := yields_check_iff.mp h
  refine yields_check_iff.mpr ⟨congrArg m.span hspan, ?_⟩
  have hfollows : SymbolTable.Follows m True table table' :=
    htable.follows hm fun _ _ => List.not_mem_nil
  rw [translate, translate, List.forall₂_map_left_iff, List.forall₂_map_right_iff]
  refine (forall₂_moveLater hdeclarations i n).imp fun d d' hd => ?_
  obtain ⟨_, _, hd', rfl, -⟩ := (d.follows_check hfollows hm.identity).exists_yields hd
  exact hd'

/-! ### Both passes in another order -/

theorem Program.fresh_moveLater {p : Program} {i n : Nat} {d : Declaration} (hp : p.Fresh)
    (hd : p.declarations[i]? = some d) : (p.moveLater i n).Fresh := fun d' hd' =>
  hp d' ((perm_moveLater hd n).mem_iff.mp hd')

theorem HasMain.of_perm {ds ds' : List Declaration} (h : HasMain ds) (hperm : ds.Perm ds') :
    HasMain ds' := by
  obtain ⟨p, hp, hmain⟩ := h
  exact ⟨p, hperm.mem_iff.mp hp, hmain⟩

/-- Declarations that were entered are well formed with a procedure moved behind others. -/
theorem Entered.exists_wellDeclared_move {library : Library} {built : Program} {c : Contents}
    (h : Entered library.contents built.declarations c) (hmain : HasMain built.declarations)
    {i : Nat} {q : Procedure} (hq : built.declarations[i]? = some (.procedure q)) (n : Nat) :
    (∃ c', Entered library.contents (built.moveLater i n).declarations c') ∧
      (built.moveLater i n).WellDeclared library := by
  have hperm := perm_moveLater hq n
  obtain ⟨before, mid, after, hsplit, hmoved⟩ := exists_moveLater hq n
  have hnames : library.contents.names.Nodup := library.names_contents ▸ library.nodup_names
  obtain ⟨c', hentered⟩ := (hsplit ▸ h).exists_move hnames
  rw [← hmoved] at hentered
  exact ⟨⟨c', hentered⟩, hentered.fits, hmain.of_perm hperm.symm⟩

/-- Both passes finish with a procedure moved behind others, if they finish. -/
theorem Program.Passes.move {options : Options} {p : Program} {i n : Nat} {q : Procedure}
    (hq : p.declarations[i]? = some (.procedure q)) {fresh fresh' : Nat}
    {output output' : Text.Sink} {checked : Program} {table : SymbolTable}
    (h : p.Passes options fresh output checked table)
    (hdump : options.listsTables = true →
      ¬((p.moveLater i n).buildTable options fresh' output').DumpFails) :
    ∃ (identity : Equiv.Perm Nat) (scope : Equiv.Perm ScopeId) (table' : SymbolTable),
      (p.moveLater i n).Passes options fresh' output'
        ((checked.moveLater i n).translate (.ofNumbers identity scope)) table' ∧
      table.Translated (.ofNumbers identity scope) [] table' := by
  obtain ⟨built, d, hbuild, hcheck⟩ := h
  have hfresh := fresh_of_yields hbuild hcheck
  have herase : built.eraseTypes = p :=
    ((p.leaves_buildTable options fresh output).of_yields hbuild).trans (eraseTypes_of_fresh hfresh)
  obtain ⟨_, _, c, hyields, hentered, hholds, hmain, hnumbered⟩ :=
    entered_of_buildTable hbuild.result_eq
  cases hyields.symm.trans hbuild
  -- The builder has left the procedure where it was.
  obtain ⟨q', hq'⟩ : ∃ q', built.declarations[i]? = some (.procedure q') := by
    rw [← herase, eraseTypes, List.getElem?_map] at hq
    obtain ⟨d', hd', heq⟩ := Option.map_eq_some_iff.mp hq
    cases d' with
    | type t => cases heq
    | procedure q' => exact ⟨q', hd'⟩
  have hmoved : (built.moveLater i n).eraseTypes = p.moveLater i n := by
    rw [moveLater, eraseTypes, map_moveLater, ← herase]
    rfl
  obtain ⟨⟨c₁, hentered₁⟩, hdeclared⟩ := hentered.exists_wellDeclared_move
    ((hentered.entryPoint_eq_ok_iff hholds).mp hmain) hq' n
  rw [← wellDeclared_eraseTypes, hmoved] at hdeclared
  obtain ⟨table', htable'⟩ := hdeclared.exists_buildTable (fresh_moveLater hfresh hq) hdump
  obtain ⟨built', d', c', hyields', hentered', hholds', -, hnumbered'⟩ :=
    entered_of_buildTable htable'
  have herase' : built'.eraseTypes = (built.moveLater i n).eraseTypes := by
    have hleaves := ((p.moveLater i n).leaves_buildTable options fresh' output').of_yields hyields'
    rw [hmoved]
    exact hleaves.trans (eraseTypes_of_fresh (fresh_moveLater hfresh hq))
  -- Run again, the builder makes the moved declarations with other numbers.
  have hbodies : ∀ d ∈ (built.moveLater i n).declarations, ∀ q, d.procedure? = some q →
      ∀ s ∈ q.body, s.Fresh := by
    obtain ⟨_, _, hvisit, -, -⟩ := yields_map_iff.mp hcheck
    have hall := forall_of_yields_visitAll Declaration.freshBody_of_yields_check hvisit
    exact fun d hd => hall d ((perm_moveLater hq' n).mem_iff.mp hd)
  have hnumbered₁ : Numbered fresh d.fresh
      (identitiesOf ((built.moveLater i n).declarations.flatMap Declaration.typeExprs)) :=
    hnumbered.of_perm (((perm_moveLater hq' n).symm.flatMap_right _).flatMap_right _)
  obtain ⟨σ, hσ⟩ := hentered₁.exists_eq_translate hentered'
    (congrArg Program.declarations herase') hnumbered₁ hnumbered' hbodies
  obtain ⟨before, mid, after, hsplit, hmove⟩ := exists_moveLater hq' n
  let first := options.library.procedures.length + procedureCount before + 1
  let last := options.library.procedures.length + procedureCount before + procedureCount mid + 1
  have hbuilt' : built' =
      (built.moveLater i n).translate (.ofNumbers σ (ScopeId.move first last)) := by
    have hspan : built'.span = built.span := (congrArg Program.span herase' :)
    show built' = ⟨_, built.span⟩
    rw [← hσ, ← hspan]
  have htable : table.Translated (.ofNumbers σ (ScopeId.move first last)) [] table' := by
    refine SymbolTable.translated_of_move (fun _ => rfl) (fun _ _ => rfl) (hsplit ▸ hentered) ?_
      hholds hholds'
    rw [← hmove]
    exact hσ _ ▸ hentered'
  refine ⟨σ, ScopeId.move first last, table', ⟨built', d', hyields', ?_⟩, htable⟩
  rw [hbuilt']
  exact yields_check_move ⟨Function.injective_id, σ.injective, (ScopeId.move first last).injective,
    ScopeId.move_global (Nat.succ_pos _) (Nat.succ_pos _)⟩ htable hcheck i n

/-- A program with a procedure moved to any later place is accepted if the
program is, unless a listing of its tables cannot be written; and where the
output takes everything it can. All nodes get the same types, but for the numbers
of array types, and each scope of the table binds the same entries, but for the
numbers of scopes. In particular two procedures that stand next to each other can
be swapped in any program. -/
theorem passes_of_moved_procedure {options : Options} {p : Program} {i : Nat} {q : Procedure}
    (hq : p.declarations[i]? = some (.procedure q)) {fresh fresh' : Nat}
    {output output' : Text.Sink} :
    (∀ n checked table, p.Passes options fresh output checked table →
      (∃ (identity : Equiv.Perm Nat) (scope : Equiv.Perm ScopeId) (table' : SymbolTable),
        (p.moveLater i n).Passes options fresh' output'
          ((checked.moveLater i n).translate (.ofNumbers identity scope)) table' ∧
        table.Translated (.ofNumbers identity scope) [] table') ∨
      options.listsTables = true ∧ ¬output'.Endless ∧
        ((p.moveLater i n).buildTable options fresh' output').DumpFails) ∧
    ∀ q', p.declarations[i + 1]? = some (.procedure q') →
      (options.listsTables = true → ¬(p.buildTable options fresh output).DumpFails ∧
        ¬((p.moveLater i 1).buildTable options fresh' output').DumpFails) →
      ((∃ checked table, p.Passes options fresh output checked table) ↔
        ∃ checked table, (p.moveLater i 1).Passes options fresh' output' checked table) := by
  refine ⟨fun n checked table h => ?_, fun q' hq' hdump => ⟨?_, ?_⟩⟩
  · by_cases hfails : options.listsTables = true ∧
        ((p.moveLater i n).buildTable options fresh' output').DumpFails
    · refine .inr ⟨hfails.1, fun hendless => ?_, hfails.2⟩
      exact Program.not_dumpFails_of_endless hendless options _ fresh' hfails.2
    · exact .inl (h.move hq fun hlists hdump => hfails ⟨hlists, hdump⟩)
  · rintro ⟨checked, table, h⟩
    obtain ⟨_, _, table', h', -⟩ := h.move (n := 1) hq fun hlists => (hdump hlists).2
    exact ⟨_, table', h'⟩
  · rintro ⟨checked, table, h⟩
    -- Swapped once more, the two stand where they stood.
    obtain ⟨hback, hfirst, -⟩ := moveLater_moveLater hq hq'
    have hsame : (p.moveLater i 1).moveLater i 1 = p :=
      congrArg (Program.mk · p.span) hback
    obtain ⟨_, _, table', h', -⟩ := h.move (n := 1) hfirst fun hlists => by
      rw [hsame]
      exact (hdump hlists).1
    rw [hsame] at h'
    exact ⟨_, table', h'⟩

/-- The first of two procedures is moved behind a type and the procedure that it
calls. Listings of its tables are written. -/
theorem caller_moved_behind_callee : ∃ (p checked : Program) (table : SymbolTable) (q : Procedure),
    p.declarations.map Declaration.name = ["main", "T", "f"] ∧
    p.declarations[0]? = some (.procedure q) ∧
    p.Passes ⟨.tables, .standard⟩ 0 .unlimited checked table ∧
    (p.moveLater 0 2).declarations.map Declaration.name = ["T", "f", "main"] ∧
    ∃ (identity : Equiv.Perm Nat) (scope : Equiv.Perm ScopeId) (table' : SymbolTable),
      (p.moveLater 0 2).Passes ⟨.tables, .standard⟩ 0 .unlimited
        ((checked.moveLater 0 2).translate (.ofNumbers identity scope)) table' ∧
      table.Translated (.ofNumbers identity scope) [] table' := by
  have haccepted : (analyze "proc main() { f(1); } type T = int; proc f(x: T) { }" "a.spl"
      ⟨.tables, .standard⟩).result.toOption.isSome = true := by
    decide +kernel
  have hnames : (parseSource "proc main() { f(1); } type T = int; proc f(x: T) { }"
      "a.spl").toOption.map (fun p => (p.declarations.map Declaration.name,
        p.declarations.map fun d => d.procedure?.isSome)) =
      some (["main", "T", "f"], [true, false, true]) := by
    decide +kernel
  obtain ⟨_, table, hanalyze⟩ := exists_analyze_eq_ok haccepted
  obtain ⟨tokens, rest, p, htokens, hparse, hview⟩ := exists_parse_of_map hnames
  obtain ⟨_, _, _, hphases, -⟩ := phases_of_analyze hanalyze
  cases hphases.tokenize_eq.symm.trans htokens
  cases hphases.parse_eq.symm.trans hparse
  obtain ⟨hnames, hkinds⟩ := Prod.mk.inj hview
  obtain ⟨q, hq⟩ : ∃ q, p.declarations[0]? = some (.procedure q) := by
    obtain ⟨d, ds, hds, hd, -⟩ := List.map_eq_cons_iff.mp hkinds
    rw [hds]
    cases d with
    | type t => cases hd
    | procedure q => exact ⟨q, rfl⟩
  have hpasses : p.Passes ⟨.tables, .standard⟩ 0 .unlimited _ table :=
    ⟨_, _, yields_of_result hphases.buildTable_eq, yields_of_result hphases.check_eq⟩
  have hmoved : (p.moveLater 0 2).declarations.map Declaration.name = ["T", "f", "main"] := by
    rw [Program.moveLater, map_moveLater, hnames]
    rfl
  refine ⟨p, _, table, q, hnames, hq, hpasses, hmoved, ?_⟩
  refine ((passes_of_moved_procedure hq).1 2 _ table hpasses).resolve_right ?_
  rintro ⟨-, hlimited, -⟩
  exact hlimited Text.Sink.endless_unlimited

end Spl
