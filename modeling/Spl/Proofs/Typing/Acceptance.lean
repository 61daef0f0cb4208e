import Spl.Proofs.Parser.Freshness
import Spl.Proofs.Phases
import Spl.Proofs.Program.Building
import Spl.Proofs.Typing.Bodies

/-!
Acceptance of programs. The checker accepts a program whose table was built
exactly if all procedure bodies keep the rules of typing, and then each
expression and each variable carries its type.
-/

namespace Spl

theorem Procedure.SameBody.wellTyped_iff {table : SymbolTable} {p after : Procedure}
    (h : p.SameBody after) : after.WellTyped table ↔ p.WellTyped table := by
  rw [Procedure.WellTyped, Procedure.WellTyped, h.name_eq, h.body_eq]

/-- What holds of all procedures of a program for the sake of their bodies
does so before and after its table is built. -/
theorem forall_iff_of_sameBody {P : Procedure → Prop}
    (hP : ∀ p after, p.SameBody after → (P after ↔ P p)) {ps afters : List Procedure}
    (h : List.Forall₂ Procedure.SameBody ps afters) : (∀ q ∈ afters, P q) ↔ ∀ q ∈ ps, P q := by
  induction h with
  | nil => rfl
  | cons hq _ ih => rw [List.forall_mem_cons, List.forall_mem_cons, hP _ _ hq, ih]

theorem Program.Fresh.freshBodies {p : Program} (h : p.Fresh) : p.FreshBodies := by
  intro q hq
  obtain ⟨d, hd, hdq⟩ := List.mem_filterMap.mp hq
  cases d with
  | type d => cases hdq
  | procedure d =>
      obtain rfl := Option.some.inj hdq
      exact Procedure.Fresh.body (h _ hd)

/-- What the builder hands to the checker. -/
theorem Program.settles_built (options : Options) {p : Program} (hfresh : p.Fresh) (fresh : Nat)
    (output : Text.Sink) :
    (p.buildTable options fresh output).Settles fun after table =>
      table.Regular ∧ List.Forall₂ Procedure.SameBody p.procedures after.1.procedures ∧
        after.1.FreshBodies := by
  apply (Program.settles_buildTable options hfresh fresh output).mono
  rintro ⟨after, d⟩ table ⟨hregular, hsame⟩
  refine ⟨hregular, hsame, ?_⟩
  rw [Program.FreshBodies, forall_iff_of_sameBody (fun p after h => by rw [h.body_eq]) hsame]
  exact hfresh.freshBodies

/-- The checker accepts a program that was read and whose table was built
exactly if the bodies of its procedures keep the rules of typing. Then all
their expressions and variables carry the types that the rules give them. -/
theorem check_eq_ok_iff_wellTyped {file : String} {tokens rest : List Token} {p : Program}
    (hparse : parse file tokens = .ok p rest) {options : Options} {fresh : Nat}
    {output : Text.Sink} {table : SymbolTable}
    (hbuild : (p.buildTable options fresh output).result = .ok table) :
    let checked := (p.buildTable options fresh output).after.1.check table
    (checked.result = .ok () ↔ p.WellTyped table) ∧
      (checked.result = .ok () → ∀ q ∈ checked.after.procedures, q.Annotated table) := by
  obtain ⟨hregular, hsame, hbodies⟩ :=
    (Program.settles_built options (Program.fresh_of_parse hparse) fresh output).of_ok hbuild
  intro checked
  refine ⟨?_, fun h => (Program.after_check_of_ok hregular hbodies h).2⟩
  rw [Program.check_eq_ok_iff hregular hbodies]
  exact forall_iff_of_sameBody (fun p after h => h.wellTyped_iff) hsame

/-- The rules are kept by a program whose `main` passes an array by reference
to a procedure that is declared after it. -/
theorem wellTyped_reference_call : ∃ tokens rest p table,
    tokenize "type V = array [2] of int;
      proc main() \x7b var a: V; if (1 < 2) f(a); \x7d
      proc f(ref a: V) \x7b a[0] := 1; \x7d" (some "a.spl") = .ok tokens ∧
    parse "a.spl" tokens = .ok p rest ∧
    (p.buildTable .default 0 .unlimited).result = .ok table ∧
    p.WellTyped table := by
  have haccepted : (analyze "type V = array [2] of int;
      proc main() \x7b var a: V; if (1 < 2) f(a); \x7d
      proc f(ref a: V) \x7b a[0] := 1; \x7d" "a.spl" .default).result.toOption.isSome = true := by
    decide +kernel
  obtain ⟨after, table, hanalyze⟩ := exists_analyze_eq_ok haccepted
  obtain ⟨tokens, rest, p, hphases, -⟩ := phases_of_analyze hanalyze
  refine ⟨tokens, rest, p, table, hphases.tokenize_eq, hphases.parse_eq, hphases.buildTable_eq, ?_⟩
  exact (check_eq_ok_iff_wellTyped hphases.parse_eq hphases.buildTable_eq).1.mp hphases.check_eq

end Spl
