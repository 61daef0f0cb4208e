import Spl.Proofs.Annotation.Discipline

/-!
The two ways of checking a program. Checking stops at the first error, and
diagnosing goes on to find one error for each procedure that has any. Bodies are
checked each for itself, so the two ways do the same up to the first error, and
the first error that diagnosing finds is the one that checking stops at.
-/

namespace Spl

open Outcome

variable {α β ν : Type}

/-! ### Walks over lists -/

/-- How checking ends if these are the errors to be found. -/
def firstOf : List Diagnostic → Except Halt Unit
  | [] => .ok ()
  | d :: _ => .error (.diagnostic d)

theorem firstOf_eq_ok_iff {found : List Diagnostic} : firstOf found = .ok () ↔ found = [] := by
  cases found <;> simp [firstOf]

namespace Outcome

/-- A pass is diagnosed unless it ends with a fault. -/
theorem result_diagnosed_eq_ok_iff {o : Outcome ν α} {found : Option Diagnostic} :
    o.diagnosed.result = .ok found ↔
      (found = none ∧ ∃ a, o.result = .ok a) ∨
        ∃ d, found = some d ∧ o.result = .error (.diagnostic d) := by
  obtain ⟨x, result⟩ := o
  match result with
  | .ok a => simp [diagnosed, eq_comm]
  | .error (.diagnostic d) => simp [diagnosed, eq_comm]
  | .error (.fault fault) => simp [diagnosed]

variable {visit : ν → Outcome ν α} {xs : List ν}

/-- A walk that finishes answers what its visits answer. -/
theorem forall₂_of_visitAll {as : List α} (h : (visitAll visit xs).result = .ok as) :
    List.Forall₂ (fun x a => (visit x).result = .ok a) xs as := by
  induction xs generalizing as with
  | nil =>
      cases h
      exact .nil
  | cons x xs ih =>
      obtain ⟨a, ha, hrest⟩ := (result_andThen_eq_ok_iff _ _ _ _).mp h
      rw [result_map] at hrest
      cases hvisit : (visitAll visit xs).result with
      | error halt =>
          rw [hvisit] at hrest
          cases hrest
      | ok as =>
          rw [hvisit] at hrest
          cases hrest
          exact .cons ha (ih hvisit)

/-- A walk ends with the first diagnostic of a visit. -/
theorem result_visitAll_of_diagnosed {founds : List (Option Diagnostic)}
    (h : List.Forall₂ (fun x found => (visit x).diagnosed.result = .ok found) xs founds) :
    (visitAll visit xs).result.map (fun _ => ()) = firstOf (founds.filterMap id) := by
  induction h with
  | nil => rfl
  | @cons x found xs founds hx _ ih =>
      rw [visitAll, andThen]
      obtain ⟨rfl, a, ha⟩ | ⟨d, rfl, hd⟩ := result_diagnosed_eq_ok_iff.mp hx
      · rw [List.filterMap_cons_none rfl, ← ih, ha]
        cases hrest : (visitAll visit xs).result <;> simp [hrest, Except.map]
      · rw [hd]
        rfl

/-- Where all visits finish, they also do so if they are diagnosed. -/
theorem visitAll_diagnosed_of_forall₂ {as : List α}
    (h : List.Forall₂ (fun x a => (visit x).result = .ok a) xs as) :
    ∃ founds, (visitAll (fun x => (visit x).diagnosed) xs).result = .ok founds := by
  apply visitAll_eq_ok
  induction h with
  | nil => simp
  | cons ha _ ih =>
      have hnone := result_diagnosed_eq_ok_iff.mpr (.inl ⟨rfl, _, ha⟩)
      exact List.forall_mem_cons.mpr ⟨⟨none, hnone⟩, ih⟩

/-- A walk that fails has visited the elements up to the one that fails. -/
theorem after_visitAll_of_error {before after : List ν} {x : ν} {halt : Halt}
    (hbefore : ∀ y ∈ before, ∃ a, (visit y).result = .ok a) (hx : (visit x).result = .error halt) :
    (visitAll visit (before ++ x :: after)).after =
      (before ++ [x]).map (fun y => (visit y).after) ++ after := by
  induction before with
  | nil =>
      rw [List.nil_append, visitAll, andThen, hx]
      rfl
  | cons y before ih =>
      obtain ⟨⟨a, ha⟩, hrest⟩ := List.forall_mem_cons.mp hbefore
      rw [List.cons_append, visitAll, andThen, ha]
      exact congrArg ((visit y).after :: ·) (ih hrest)

end Outcome

/-! ### Procedures -/

variable {table : SymbolTable}

/-- Checking the procedure by itself ends early. -/
def Procedure.fails (table : SymbolTable) (q : Procedure) : Bool :=
  (q.check table).result.toOption.isNone

/-- The procedure with what checking it by itself writes into its body. -/
def Procedure.afterCheck (table : SymbolTable) (q : Procedure) : Procedure :=
  (q.check table).after

theorem Procedure.fails_eq_false_iff {q : Procedure} :
    q.fails table = false ↔ (q.check table).result = .ok () := by
  rw [fails]
  cases (q.check table).result <;> simp [Except.toOption]

theorem Procedure.fails_iff {q : Procedure} :
    q.fails table = true ↔ ∃ halt, (q.check table).result = .error halt := by
  rw [fails]
  cases (q.check table).result <;> simp [Except.toOption]

namespace Declaration

/-- Only procedures can fail. -/
theorem result_check_of_procedures {d : Declaration}
    (h : ∀ q, d.procedure? = some q → q.fails table = false) :
    (d.check table).result = .ok () := by
  cases d with
  | type t => rfl
  | procedure q =>
      rw [check, result_map, Procedure.fails_eq_false_iff.mp (h q rfl)]
      rfl

theorem result_check_procedure (q : Procedure) :
    ((procedure q).check table).result = (q.check table).result := by
  rw [check, result_map]
  cases (q.check table).result <;> rfl

theorem procedure?_after_check (d : Declaration) :
    (d.check table).after.procedure? = d.procedure?.map (Procedure.afterCheck table) := by
  cases d <;> rfl

theorem filterMap_procedure?_after_check (ds : List Declaration) :
    (ds.map fun d => (d.check table).after).filterMap procedure? =
      (ds.filterMap procedure?).map (Procedure.afterCheck table) := by
  rw [List.filterMap_map, List.map_filterMap]
  exact congrArg (ds.filterMap ·) (funext procedure?_after_check)

/-- What is found in declarations is one diagnostic for each procedure that
fails. -/
theorem found_of_diagnosed {ds : List Declaration} {founds : List (Option Diagnostic)}
    (h : List.Forall₂ (fun d found => (d.check table).diagnosed.result = .ok found) ds founds) :
    List.Forall₂ (fun q d => (q.check table).result = .error (.diagnostic d))
      ((ds.filterMap procedure?).filter (Procedure.fails table)) (founds.filterMap id) := by
  induction h with
  | nil => exact .nil
  | @cons d found ds founds hd _ ih =>
      cases d with
      | type t =>
          obtain rfl : none = found := Except.ok.inj hd
          exact ih
      | procedure q =>
          rw [List.filterMap_cons_some (f := procedure?) rfl]
          obtain ⟨rfl, a, ha⟩ | ⟨d, rfl, hfails⟩ := result_diagnosed_eq_ok_iff.mp hd
          · rw [result_check_procedure] at ha
            rw [List.filter_cons_of_neg (by simp [Procedure.fails_eq_false_iff.mpr ha])]
            exact ih
          · rw [result_check_procedure] at hfails
            rw [List.filter_cons_of_pos (Procedure.fails_iff.mpr ⟨_, hfails⟩)]
            exact .cons hfails ih

end Declaration

/-! ### Programs -/

namespace Program

variable {p : Program}

/-- The procedures whose own check ends early, in the order of their declarations. -/
def failing (table : SymbolTable) (p : Program) : List Procedure :=
  p.procedures.filter (Procedure.fails table)

/-- The diagnostics found, with what they were found in. -/
theorem exists_founds_of_diagnose {found : List Diagnostic}
    (h : (p.diagnose table).result = .ok found) :
    ∃ founds, List.Forall₂ (fun d found => (d.check table).diagnosed.result = .ok found)
      p.declarations founds ∧ founds.filterMap id = found := by
  rw [diagnose, result_map] at h
  cases hvisit : (visitAll (fun d => (d.check table).diagnosed) p.declarations).result with
  | error halt =>
      rw [hvisit] at h
      cases h
  | ok founds =>
      rw [hvisit] at h
      exact ⟨founds, forall₂_of_visitAll hvisit, Except.ok.inj h⟩

/-- Checking ends with the first error that diagnosing finds. -/
theorem check_of_diagnose {found : List Diagnostic} (h : (p.diagnose table).result = .ok found) :
    (p.check table).result = firstOf found := by
  obtain ⟨founds, hfounds, rfl⟩ := exists_founds_of_diagnose h
  exact result_visitAll_of_diagnosed hfounds

/-- Checking finishes exactly if diagnosing finds nothing. -/
theorem check_eq_ok_iff_diagnose :
    (p.check table).result = .ok () ↔ (p.diagnose table).result = .ok [] := by
  constructor
  · intro h
    rw [check, result_map] at h
    cases hvisit : (visitAll (Declaration.check table) p.declarations).result with
    | error halt =>
        rw [hvisit] at h
        cases h
    | ok units =>
        obtain ⟨founds, hfounds⟩ := visitAll_diagnosed_of_forall₂ (forall₂_of_visitAll hvisit)
        have hdiagnose : (p.diagnose table).result = .ok (founds.filterMap id) := by
          rw [diagnose, result_map, hfounds]
          rfl
        have hfirst := check_of_diagnose hdiagnose
        rw [check, result_map, hvisit] at hfirst
        rw [hdiagnose, firstOf_eq_ok_iff.mp hfirst.symm]
  · intro h
    rw [check_of_diagnose h]
    rfl

/-- Checking leaves the procedures behind the first one that fails as they are. -/
theorem procedures_check_of_split {before after : List Procedure} {q : Procedure}
    (hsplit : p.procedures = before ++ q :: after)
    (hbefore : ∀ b ∈ before, b.fails table = false) (hq : q.fails table = true) :
    (p.check table).after.procedures =
      (before ++ [q]).map (Procedure.afterCheck table) ++ after := by
  obtain ⟨ds, ds', hds, rfl, hds'⟩ := List.filterMap_eq_append_iff.mp hsplit
  obtain ⟨types, d, rest, rfl, htypes, hd, rfl⟩ := List.filterMap_eq_cons_iff.mp hds'
  -- Declarations of types between the procedures have no body that could fail.
  have hfinish : ∀ d ∈ ds ++ types, ∃ a, (d.check table).result = .ok a := by
    intro d hd
    refine ⟨(), Declaration.result_check_of_procedures fun r hr => ?_⟩
    obtain hd | hd := List.mem_append.mp hd
    · exact hbefore r (List.mem_filterMap.mpr ⟨d, hd, hr⟩)
    · rw [htypes d hd] at hr
      cases hr
  have hfail : ∃ halt, (d.check table).result = .error halt := by
    cases d with
    | type t => cases hd
    | procedure r =>
        obtain rfl := Option.some.inj hd
        rw [Declaration.result_check_procedure]
        exact Procedure.fails_iff.mp hq
  obtain ⟨halt, hhalt⟩ := hfail
  have hseen : (ds ++ types ++ [d]).filterMap Declaration.procedure? =
      ds.filterMap Declaration.procedure? ++ [q] := by
    simp [List.filterMap_append, List.filterMap_eq_nil_iff.mpr htypes, hd]
  rw [← List.append_assoc] at hds
  rw [check, after_map, procedures, hds, after_visitAll_of_error hfinish hhalt,
    List.filterMap_append, Declaration.filterMap_procedure?_after_check, hseen]

/-- Where nothing fails, both ways leave the same. -/
theorem after_check_eq_after_diagnose (h : (p.check table).result = .ok ()) :
    (p.check table).after = (p.diagnose table).after := by
  have hdiagnose := check_eq_ok_iff_diagnose.mp h
  rw [check, result_map] at h
  rw [diagnose, result_map] at hdiagnose
  cases hvisit : (visitAll (Declaration.check table) p.declarations).result with
  | error halt =>
      rw [hvisit] at h
      cases h
  | ok units =>
      cases hdiagnosed : (visitAll (fun d => (d.check table).diagnosed) p.declarations).result with
      | error halt =>
          rw [hdiagnosed] at hdiagnose
          cases hdiagnose
      | ok founds =>
          rw [check, diagnose, after_map, after_map, after_visitAll_of_ok hvisit,
            after_visitAll_of_ok hdiagnosed]
          simp

end Program

/-! ### Programs with a table -/

/-- A procedure of a program with a table is found in it. -/
theorem exists_procedure?_of_buildTable {options : Options} {p : Program} {fresh : Nat}
    {output : Text.Sink} {table : SymbolTable}
    (hbuild : (p.buildTable options fresh output).result = .ok table) {q : Procedure}
    (hq : q ∈ (p.buildTable options fresh output).after.1.procedures) :
    ∃ signature, table.procedure? q.name = .ok (some signature) := by
  obtain ⟨built, d, c, hyields, hentered, hholds, -, -⟩ := Program.entered_of_buildTable hbuild
  rw [hyields.after_eq] at hq
  obtain ⟨i, hglobal, -, -⟩ := hentered.exists_procedure (Program.mem_procedures_iff.mp hq)
  exact ⟨_, SymbolTable.procedure?_eq_ok_some_iff.mpr (hholds.get_global_iff.mpr hglobal)⟩

/-- A program that was read is diagnosed to its end. -/
theorem exists_diagnose_of_fresh {options : Options} {p : Program} (hfresh : p.Fresh) {fresh : Nat}
    {output : Text.Sink} {table : SymbolTable}
    (hbuild : (p.buildTable options fresh output).result = .ok table) :
    (p.buildTable options fresh output).after.1.FreshBodies ∧
      ∃ found, ((p.buildTable options fresh output).after.1.diagnose table).result = .ok found := by
  obtain ⟨hregular, -, hbodies⟩ :=
    (Program.settles_built options hfresh fresh output).of_ok hbuild
  obtain ⟨built, d, c, hyields, hentered, hholds, -, -⟩ := Program.entered_of_buildTable hbuild
  rw [hyields.after_eq] at hbodies ⊢
  have hcheckable := Program.checkable_of_entered hentered hholds hbodies
  obtain ⟨found, hfound, -⟩ := (Program.steps_of_diagnose hregular hcheckable).exists_ok
  exact ⟨hbodies, found, hfound⟩

/-- Checking a program whose table was built and diagnosing it agree. Each
procedure is found in the table, so none is blamed for not being there.
Checking finishes exactly if nothing is diagnosed, and else ends with the first
diagnostic. There is one diagnostic for each procedure that fails by itself, in
the order of the declarations. Both ways leave the same up to the first
procedure that fails, and checking leaves those behind it as they were. A
program without types is always diagnosed to its end, and the bodies behind
the one that fails have no types then. -/
theorem check_agrees_with_diagnose {options : Options} {p : Program} {fresh : Nat}
    {output : Text.Sink} {table : SymbolTable}
    (hbuild : (p.buildTable options fresh output).result = .ok table) :
    let built := (p.buildTable options fresh output).after.1
    let checked := built.check table
    let diagnosed := built.diagnose table
    (∀ q ∈ built.procedures, ∃ signature, table.procedure? q.name = .ok (some signature)) ∧
      (checked.result = .ok () ↔ diagnosed.result = .ok []) ∧
      (checked.result = .ok () → checked.after = diagnosed.after) ∧
      (∀ found, diagnosed.result = .ok found →
        checked.result = firstOf found ∧
          List.Forall₂ (fun q d => (q.check table).result = .error (.diagnostic d))
            (built.failing table) found) ∧
      (∀ before q after, built.procedures = before ++ q :: after →
        (∀ b ∈ before, b.fails table = false) → q.fails table = true →
        let seen := (before ++ [q]).map (Procedure.afterCheck table)
        checked.after.procedures = seen ++ after ∧
          ∀ found, diagnosed.result = .ok found →
            diagnosed.after.procedures = seen ++ after.map (Procedure.afterCheck table)) ∧
      (p.Fresh →
        (∀ q ∈ built.procedures, ∀ s ∈ q.body, s.Fresh) ∧
          ∃ found, diagnosed.result = .ok found) := by
  intro built checked diagnosed
  refine ⟨fun q hq => exists_procedure?_of_buildTable hbuild hq,
    Program.check_eq_ok_iff_diagnose, Program.after_check_eq_after_diagnose, ?_, ?_,
    fun hfresh => exists_diagnose_of_fresh hfresh hbuild⟩
  · intro found hfound
    obtain ⟨founds, hfounds, rfl⟩ := Program.exists_founds_of_diagnose hfound
    exact ⟨Program.check_of_diagnose hfound, Declaration.found_of_diagnosed hfounds⟩
  · intro before q after hsplit hbefore hq seen
    refine ⟨Program.procedures_check_of_split hsplit hbefore hq, fun found hfound => ?_⟩
    have hall : diagnosed.after.procedures = built.procedures.map (Procedure.afterCheck table) :=
      Program.procedures_diagnose hfound
    rw [hall, hsplit]
    simp [seen]

/-- Two of three procedures fail. Checking stops at the first of them. -/
theorem check_stops_at_first_diagnosed : ∃ (p : Program) (table : SymbolTable) (x c : Position),
    (p.buildTable .default 0 .unlimited).result = .ok table ∧
    let built := (p.buildTable .default 0 .unlimited).after.1
    (built.diagnose table).result = .ok
      [⟨.undefinedVariable "x", x⟩, ⟨.ifConditionMustBeBoolean "int", c⟩] ∧
    (built.check table).result = .error (.diagnostic ⟨.undefinedVariable "x", x⟩) := by
  have hfound : (parseSource
      "proc p() { x := 1; z := 2; } proc q() { printi(1); } proc main() { if (1) ; }"
      "a.spl").toOption.map
      (fun p => (p.buildTable .default 0 .unlimited).result.toOption.map fun table =>
        ((p.buildTable .default 0 .unlimited).after.1.diagnose table).result.toOption) =
      some (some (some [⟨.undefinedVariable "x", ⟨11, "a.spl"⟩⟩,
        ⟨.ifConditionMustBeBoolean "int", ⟨67, "a.spl"⟩⟩])) := by
    decide +kernel
  obtain ⟨tokens, rest, p, htokens, hparse, hview⟩ := exists_parse_of_map hfound
  obtain ⟨table, hbuild, hview⟩ := exists_ok_of_map hview
  obtain ⟨-, -, -, hdiagnosed, -, hends⟩ := check_agrees_with_diagnose hbuild
  obtain ⟨-, found, hdiagnose⟩ := hends (Program.fresh_of_parse hparse)
  rw [hdiagnose] at hview
  cases hview
  exact ⟨p, table, _, _, hbuild, hdiagnose, (hdiagnosed _ hdiagnose).1⟩

end Spl
