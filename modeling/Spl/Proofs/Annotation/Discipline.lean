import Spl.Proofs.Annotation.Erasure
import Spl.Proofs.Annotation.Evaluation
import Spl.Proofs.Program.Layout
import Spl.Proofs.Typing.Acceptance

/-!
The discipline of annotation. Whichever way the passes end, they leave the
program that was read but for types, no type is written over another, the
builder writes into type expressions and the checker into bodies, and in a body
that breaks a rule exactly the nodes before the break have got their types.
-/

namespace Spl

open Outcome

/-! ### Procedures -/

/-- All nodes of the body carry the types that the rules give them, and all
rules are kept. -/
def Procedure.Complete (table : SymbolTable) (p : Procedure) : Prop :=
  ∃ signature, table.get .global p.name = .ok (some (.procedure signature)) ∧
    ∀ step ∈ p.steps, step.Done ⟨table, signature.scope⟩

/-- Checking the body has stopped at its first break of a rule. -/
def Procedure.Stopped (table : SymbolTable) (p : Procedure) : Prop :=
  ∃ signature, table.get .global p.name = .ok (some (.procedure signature)) ∧
    Spl.Stopped ⟨table, signature.scope⟩ p.steps

/-- What the checker needs to find: bodies without types, and procedures that
are declared. -/
structure Procedure.Checkable (table : SymbolTable) (p : Procedure) : Prop where
  fresh : ∀ s ∈ p.body, s.Fresh
  declared : ∃ signature, table.get .global p.name = .ok (some (.procedure signature))

theorem Procedure.steps_of_check {table : SymbolTable} (ht : table.Regular) {p : Procedure}
    (hp : p.Checkable table) :
    (p.check table).SettlesOr (fun after _ => after.Complete table)
      fun after => after.Stopped table := by
  obtain ⟨signature, hget⟩ := hp.declared
  have hΓ : Context.Valid ⟨table, signature.scope⟩ := ht.valid (ht.entry_of_get hget).1
  rw [Procedure.check, SymbolTable.procedure?_eq_ok_some_iff.mpr hget]
  apply SettlesOr.map
  apply (Stmt.steps_of_checkAll hΓ p.body hp.fresh).mono
  · intro body _ h
    exact ⟨signature, hget, h⟩
  · intro body h
    exact ⟨signature, hget, h⟩

/-! ### Procedures in a row -/

/-- Checking has stopped in one of the procedures. Those before it are
complete, and those behind it have no types yet. -/
def StoppedAmong (table : SymbolTable) (ps : List Procedure) : Prop :=
  ∃ before p after, ps = before ++ p :: after ∧ (∀ q ∈ before, q.Complete table) ∧
    p.Stopped table ∧ ∀ q ∈ after, ∀ step ∈ q.steps, step.Unset

/-- Types have nothing to check. -/
theorem Declaration.steps_of_check {table : SymbolTable} (ht : table.Regular) {d : Declaration}
    (hd : ∀ p, d.procedure? = some p → p.Checkable table) :
    (d.check table).SettlesOr (fun after _ => ∀ p, after.procedure? = some p → p.Complete table)
      fun after => ∃ p, after.procedure? = some p ∧ p.Stopped table := by
  cases d with
  | type t => exact fun p hp => by cases hp
  | procedure p =>
      apply SettlesOr.map
      apply (Procedure.steps_of_check ht (hd p rfl)).mono
      · rintro after - hafter p ⟨⟩
        exact hafter
      · exact fun after hafter => ⟨after, rfl, hafter⟩

section Rows

variable {table : SymbolTable}

theorem forall_mem_filterMap_cons {α β : Type} {f : α → Option β} {x : α} {xs : List α}
    {P : β → Prop} :
    (∀ b ∈ (x :: xs).filterMap f, P b) ↔
      (∀ b, f x = some b → P b) ∧ ∀ b ∈ xs.filterMap f, P b := by
  simp only [List.forall_mem_filterMap, List.forall_mem_cons]

theorem StoppedAmong.cons {ds : List Declaration}
    (h : StoppedAmong table (ds.filterMap Declaration.procedure?)) {d : Declaration}
    (hd : ∀ p, d.procedure? = some p → p.Complete table) :
    StoppedAmong table ((d :: ds).filterMap Declaration.procedure?) := by
  obtain ⟨before, p, after, hds, hbefore, hp, hafter⟩ := h
  cases d with
  | type t => exact ⟨before, p, after, hds, hbefore, hp, hafter⟩
  | procedure q =>
      refine ⟨q :: before, p, after, ?_, List.forall_mem_cons.mpr ⟨hd q rfl, hbefore⟩, hp, hafter⟩
      exact congrArg (q :: ·) hds

theorem steps_of_visitAll_check (ht : table.Regular) {ds : List Declaration}
    (hds : ∀ p ∈ ds.filterMap Declaration.procedure?, p.Checkable table) :
    (visitAll (Declaration.check table) ds).SettlesOr
      (fun after _ => ∀ p ∈ after.filterMap Declaration.procedure?, p.Complete table)
      fun after => StoppedAmong table (after.filterMap Declaration.procedure?) := by
  induction ds with
  | nil => exact fun _ h => absurd h List.not_mem_nil
  | cons d ds ih =>
      obtain ⟨hd, hrest⟩ := forall_mem_filterMap_cons.mp hds
      apply SettlesOr.andThen
      apply (Declaration.steps_of_check ht hd).mono
      · intro after _ hafter
        apply SettlesOr.map
        apply (ih hrest).mono
        · exact fun afters _ hafters => forall_mem_filterMap_cons.mpr ⟨hafter, hafters⟩
        · exact fun afters hafters => hafters.cons hafter
      · rintro after ⟨p, hp, hstopped⟩
        -- The walk ends here, so what is behind is as the parser has made it.
        refine ⟨[], p, ds.filterMap Declaration.procedure?, ?_, by simp, hstopped, ?_⟩
        · exact List.filterMap_cons_some hp
        · exact fun q hq => Stmt.unset_of_fresh_all q.body (hrest q hq).fresh

/-- The bodies of all procedures are complete if nothing was found in any. -/
theorem steps_of_visitAll_diagnosed (ht : table.Regular) {ds : List Declaration}
    (hds : ∀ p ∈ ds.filterMap Declaration.procedure?, p.Checkable table) :
    (visitAll (fun d => (d.check table).diagnosed) ds).SettlesOr
      (fun after found => found.filterMap id = [] →
        ∀ p ∈ after.filterMap Declaration.procedure?, p.Complete table)
      fun _ => False := by
  induction ds with
  | nil => exact fun _ _ h => absurd h List.not_mem_nil
  | cons d ds ih =>
      obtain ⟨hd, hrest⟩ := forall_mem_filterMap_cons.mp hds
      have hcheck := Declaration.steps_of_check ht hd
      apply SettlesOr.andThen
      apply (SettlesOr.diagnosed hcheck).mono _ fun _ h => h
      intro after found hafter
      apply SettlesOr.map
      apply (ih hrest).mono _ fun _ h => h
      intro afters founds hafters hnone
      cases hafter with
      | inl hcomplete =>
          obtain ⟨rfl, hcomplete⟩ := hcomplete
          exact forall_mem_filterMap_cons.mpr ⟨hcomplete, hafters hnone⟩
      | inr hstopped =>
          obtain ⟨⟨diagnostic, rfl⟩, -⟩ := hstopped
          simp at hnone

end Rows

/-! ### Programs -/

namespace Program

variable {table : SymbolTable} {p : Program}

/-- All nodes of the program carry types. -/
structure Complete (table : SymbolTable) (p : Program) : Prop where
  types : ∀ d ∈ p.declarations, ∀ e ∈ d.typeExprs, ∀ node ∈ e.nodes, node.ty.isSome = true
  bodies : ∀ q ∈ p.procedures, q.Complete table

theorem steps_of_check (ht : table.Regular) (hp : ∀ q ∈ p.procedures, q.Checkable table) :
    (p.check table).SettlesOr (fun after _ => ∀ q ∈ after.procedures, q.Complete table)
      fun after => StoppedAmong table after.procedures :=
  SettlesOr.map (steps_of_visitAll_check ht hp)

theorem steps_of_diagnose (ht : table.Regular) (hp : ∀ q ∈ p.procedures, q.Checkable table) :
    (p.diagnose table).SettlesOr
      (fun after found => found = [] → ∀ q ∈ after.procedures, q.Complete table)
      fun _ => False :=
  SettlesOr.map (steps_of_visitAll_diagnosed ht hp)

/-- Each declaration is checked for itself. -/
theorem declarations_diagnose {found : List Diagnostic}
    (h : (p.diagnose table).result = .ok found) :
    (p.diagnose table).after.declarations = p.declarations.map fun d => (d.check table).after := by
  rw [diagnose, result_map] at h
  cases hvisit : (visitAll (fun d => (d.check table).diagnosed) p.declarations).result with
  | error halt =>
      rw [hvisit] at h
      cases h
  | ok founds =>
      rw [diagnose, after_map, after_visitAll_of_ok hvisit]
      simp

theorem procedures_diagnose {found : List Diagnostic} (h : (p.diagnose table).result = .ok found) :
    (p.diagnose table).after.procedures = p.procedures.map fun q => (q.check table).after := by
  have hprocedure : ∀ d : Declaration, (d.check table).after.procedure? =
      d.procedure?.map fun q => (q.check table).after := by
    intro d
    cases d <;> rfl
  rw [procedures, declarations_diagnose h]
  simp [procedures, List.filterMap_map, List.map_filterMap, hprocedure]

/-- The types of type expressions are none of a body. -/
theorem freshBodies_of_eraseTypes {parsed : Program} (hfresh : parsed.Fresh)
    (h : p.eraseTypes = parsed) : p.FreshBodies := by
  intro q hq
  have hprocedure : q.eraseTypes ∈ parsed.procedures := by
    rw [← h, procedures_eraseTypes]
    exact List.mem_map_of_mem hq
  exact hfresh.freshBodies q.eraseTypes hprocedure

/-- What was built is ready for the checker. -/
theorem checkable_of_entered {library : Library} {c : Contents}
    (hentered : Entered library.contents p.declarations c) (hholds : table.Holds c.scopes)
    (hfresh : p.FreshBodies) : ∀ q ∈ p.procedures, q.Checkable table := by
  intro q hq
  obtain ⟨i, hglobal, -, -⟩ := hentered.exists_procedure (mem_procedures_iff.mp hq)
  exact ⟨hfresh q hq, _, hholds.get_global_iff.mpr hglobal⟩

/-- Checking bodies does not change the types of type expressions. -/
theorem types_of_entered {library : Library} {c : Contents} {built : Program}
    (hentered : Entered library.contents built.declarations c) (hbodies : p.eraseBodies = built) :
    ∀ d ∈ p.declarations, ∀ e ∈ d.typeExprs, ∀ node ∈ e.nodes, node.ty.isSome = true := by
  intro d hd e he node hnode
  subst hbodies
  rw [← d.typeExprs_eraseBody] at he
  have hresolved := Declaration.resolved_of_entered hentered (List.mem_map_of_mem hd) e he
  rw [(hresolved.of_mem_nodes hnode).ty_eq]
  rfl

end Program

/-! ### The passes -/

/-- The pass has come to a node that had a type already. -/
def Outcome.WritesTwice {ν α : Type} (o : Outcome ν α) : Prop :=
  ∃ was now, o.result = .error (.fault (.annotatedTwice was now))

theorem Outcome.Settles.not_writesTwice {ν α : Type} {o : Outcome ν α} {Q : ν → α → Prop}
    (h : o.Settles Q) : ¬o.WritesTwice := by
  rintro ⟨was, now, hresult⟩
  rw [Outcome.Settles, hresult] at h
  exact h

theorem Outcome.SettlesOr.not_writesTwice {ν α : Type} {o : Outcome ν α} {Q : ν → α → Prop}
    {S : ν → Prop} (h : o.SettlesOr Q S) : ¬o.WritesTwice := by
  rintro ⟨was, now, hresult⟩
  rw [Outcome.SettlesOr, hresult] at h
  exact h

/-- A pass over the bodies of a program that was built from `p`. It leaves the
program as it was but for types in bodies, and `p` without any types. -/
structure AnnotatesBodies {α : Type} (p built : Program) (o : Outcome Program α) : Prop where
  once : ¬o.WritesTwice
  bodies : o.after.eraseBodies = built
  parsed : o.after.erase = p

theorem AnnotatesBodies.of_leaves {α : Type} {p built : Program} {o : Outcome Program α}
    (honce : ¬o.WritesTwice) (ho : o.Leaves fun after => after.eraseBodies = built.eraseBodies)
    (hfresh : built.FreshBodies) (hp : built.eraseTypes = p) : AnnotatesBodies p built o := by
  have hbodies : o.after.eraseBodies = built := Eq.trans ho (Program.eraseBodies_of_fresh hfresh)
  exact ⟨honce, hbodies, by rw [Program.erase, hbodies, hp]⟩

/-- Whichever way the passes end, they leave a program that was read as it was
but for types: the builder writes into type expressions, and the checker into
bodies. No type is written twice. A body that breaks a rule has the types that
were found before the break, and a program that breaks none has all of them. -/
theorem annotations_of_passes {file : String} {tokens rest : List Token} {p : Program}
    (hparse : parse file tokens = .ok p rest) (options : Options) (fresh : Nat)
    (output : Text.Sink) :
    let built := p.buildTable options fresh output
    (¬built.WritesTwice ∧ built.after.1.eraseTypes = p ∧ built.after.1.erase = p) ∧
      ∀ table, built.result = .ok table →
        let checked := built.after.1.check table
        let diagnosed := built.after.1.diagnose table
        (∀ q ∈ built.after.1.procedures,
          ((q.check table).result = .ok () → (q.check table).after.Complete table) ∧
            ∀ halt, (q.check table).result = .error halt → (q.check table).after.Stopped table) ∧
        (AnnotatesBodies p built.after.1 checked ∧
          (checked.result = .ok () → checked.after.Complete table) ∧
          ∀ halt, checked.result = .error halt → StoppedAmong table checked.after.procedures) ∧
        (AnnotatesBodies p built.after.1 diagnosed ∧
          diagnosed.after.procedures =
            built.after.1.procedures.map (fun q => (q.check table).after) ∧
          ∃ found, diagnosed.result = .ok found ∧
            (found = [] → diagnosed.after.Complete table)) := by
  intro built
  have hfresh := Program.fresh_of_parse hparse
  have hsettled := Program.settles_built options hfresh fresh output
  have htypes : built.after.1.eraseTypes = p :=
    Eq.trans (p.leaves_buildTable options fresh output) (Program.eraseTypes_of_fresh hfresh)
  have hunchecked := Program.freshBodies_of_eraseTypes hfresh htypes
  refine ⟨⟨hsettled.not_writesTwice, htypes, ?_⟩, ?_⟩
  · rw [Program.erase, Program.eraseBodies_of_fresh hunchecked, htypes]
  · intro table hresult checked diagnosed
    obtain ⟨hregular, -, -⟩ := hsettled.of_ok hresult
    obtain ⟨after, d, c, hyields, hentered, hholds, -, -⟩ := Program.entered_of_buildTable hresult
    have hafter : built.after.1 = after := congrArg Prod.fst hyields.after_eq
    rw [← hafter] at hentered
    have hcheckable := Program.checkable_of_entered hentered hholds hunchecked
    refine ⟨fun q hq => ?_, ?_, ?_⟩
    · have hcheck := Procedure.steps_of_check hregular (hcheckable q hq)
      exact ⟨fun h => hcheck.of_ok h, fun halt h => (hcheck.of_error h).2⟩
    · have hcheck := Program.steps_of_check hregular hcheckable
      have hchecked : AnnotatesBodies p built.after.1 checked :=
        .of_leaves hcheck.not_writesTwice (Program.leaves_check table _) hunchecked htypes
      have htyped := Program.types_of_entered hentered hchecked.bodies
      exact ⟨hchecked, fun h => ⟨htyped, hcheck.of_ok h⟩, fun halt h => (hcheck.of_error h).2⟩
    · have hdiagnose := Program.steps_of_diagnose hregular hcheckable
      have hdiagnosed : AnnotatesBodies p built.after.1 diagnosed :=
        .of_leaves hdiagnose.not_writesTwice (Program.leaves_diagnose table _) hunchecked htypes
      have htyped := Program.types_of_entered hentered hdiagnosed.bodies
      obtain ⟨found, hfound, hbodies⟩ := hdiagnose.exists_ok
      exact ⟨hdiagnosed, Program.procedures_diagnose hfound, found, hfound,
        fun h => ⟨htyped, hbodies h⟩⟩

/-- A comparison cannot be added, so the checker stops at the sum. -/
theorem stopped_at_sum : ∃ tokens rest p table,
    tokenize "proc main() \x7b var i: int; i := 1; i := i + (1 < 2); i := 2; \x7d" (some "a.spl") =
      .ok tokens ∧
    parse "a.spl" tokens = .ok p rest ∧
    (p.buildTable .default 0 .unlimited).result = .ok table ∧
    StoppedAmong table
      ((p.buildTable .default 0 .unlimited).after.1.check table).after.procedures := by
  have hfails : (parseSource
      "proc main() \x7b var i: int; i := 1; i := i + (1 < 2); i := 2; \x7d" "a.spl").toOption.map
      (fun p => (p.buildTable .default 0 .unlimited).result.toOption.map fun table =>
        ((p.buildTable .default 0 .unlimited).after.1.check table).result.toOption.isNone) =
      some (some true) := by
    decide +kernel
  obtain ⟨tokens, rest, p, htokens, hparse, hview⟩ := exists_parse_of_map hfails
  obtain ⟨table, hbuild, hview⟩ := exists_ok_of_map hview
  cases hcheck : ((p.buildTable .default 0 .unlimited).after.1.check table).result with
  | ok _ =>
      rw [hcheck] at hview
      cases hview
  | error halt =>
      obtain ⟨-, hpasses⟩ := annotations_of_passes hparse .default 0 .unlimited
      obtain ⟨-, ⟨-, -, hstopped⟩, -⟩ := hpasses table hbuild
      exact ⟨tokens, rest, p, table, htokens, hparse, hbuild, hstopped halt hcheck⟩

end Spl
