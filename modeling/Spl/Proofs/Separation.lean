import Spl.Proofs.Annotation.Diagnosis
import Spl.Proofs.Counting

/-!
Bodies are private. The builder does not look at them, and a body is checked
against the table alone. So whatever stands in the body of a procedure makes a
difference to this procedure only.
-/

namespace Spl

open Outcome

/-! ### Uniform walks -/

/-- If the visits of all members of a family do the same up to the member, so do
the walks over lists that have one of the family among their elements. -/
theorem Outcome.exists_threadAll_of_uniform {ι κ ν σ α : Type} {visit : ν → σ → Outcome (ν × σ) α}
    (member : κ → ι → ν) {x : κ}
    (h : ∀ s, ∃ y s' result, ∀ i, visit (member x i) s = ⟨(member y i, s'), result⟩)
    (before after : List ν) (s : σ) :
    ∃ before' y after' s' result, before'.length = before.length ∧
      ∀ i, threadAll visit (before ++ member x i :: after) s =
        ⟨(before' ++ member y i :: after', s'), result⟩ := by
  induction before generalizing s with
  | nil =>
      obtain ⟨y, s', result, hvisit⟩ := h s
      cases result with
      | error halt =>
          refine ⟨[], y, after, s', .error halt, rfl, fun i => ?_⟩
          rw [List.nil_append, threadAll, hvisit i]
          rfl
      | ok a =>
          -- From here on the walk has left the family behind.
          let rest := threadAll visit after s'
          refine ⟨[], y, rest.after.1, rest.after.2, rest.result.map (a :: ·), rfl, fun i => ?_⟩
          rw [List.nil_append, threadAll, hvisit i]
          rfl
  | cons z before ih =>
      rcases hz : visit z s with ⟨⟨z', s'⟩, halt | a⟩
      · refine ⟨z' :: before, x, after, s', .error halt, rfl, fun i => ?_⟩
        rw [List.cons_append, threadAll, hz]
        rfl
      · obtain ⟨before', y, after', t, result, hlength, hrest⟩ := ih s'
        refine ⟨z' :: before', y, after', t, result.map (a :: ·), congrArg (· + 1) hlength,
          fun i => ?_⟩
        rw [List.cons_append, threadAll, hz, andThen_ok]
        dsimp only
        rw [hrest i]
        rfl

/-! ### The builder and bodies -/

/-- Entering a procedure does the same whatever its body is. -/
theorem Procedure.exists_declare_of_body (q : Procedure) (d : Draft) :
    ∃ (q' : Procedure) (d' : Draft) (result : Except Halt ScopeId), ∀ body,
      ({ q with body } : Procedure).declare d = ⟨({ q' with body }, d'), result⟩ := by
  simp only [declare]
  generalize d.table.nest .global = nested
  obtain ⟨table, scope⟩ := nested
  dsimp only
  rcases threadAll (Parameter.declare scope) q.parameters { d with table } with
    ⟨⟨parameters, d₁⟩, halt | formals⟩
  · exact ⟨{ q with parameters }, d₁, .error halt, fun _ => rfl⟩
  dsimp only [andThen_ok]
  rcases threadAll (LocalVariable.declare scope) q.locals d₁ with ⟨⟨locals, d₂⟩, halt | units⟩
  · exact ⟨{ q with parameters, locals }, d₂, .error halt, fun _ => rfl⟩
  exact ⟨{ q with parameters, locals }, _, _, fun _ => rfl⟩

theorem Declaration.exists_declare_of_body (options : Options) (q : Procedure) (d : Draft) :
    ∃ (q' : Procedure) (d' : Draft) (result : Except Halt Unit), ∀ body,
      (procedure { q with body }).declare options d =
        ⟨(procedure { q' with body }, d'), result⟩ := by
  simp only [declare]
  obtain ⟨q', d', result, hdeclare⟩ := q.exists_declare_of_body d
  simp only [hdeclare]
  cases result with
  | error halt => exact ⟨q', d', .error halt, fun _ => rfl⟩
  | ok scope =>
      dsimp only [andThen_ok]
      split
      -- A listing shows the name of the procedure and its scope.
      · let listed := d'.list q' scope
        exact ⟨q', listed.after, listed.result.map id, fun _ => rfl⟩
      · exact ⟨q', d', .ok (), fun _ => rfl⟩

/-- Building the table of a program does the same whatever the body of a
procedure is. -/
theorem Program.exists_buildTable_of_body (options : Options) (before after : List Declaration)
    (q : Procedure) (fresh : Nat) (output : Text.Sink) :
    ∃ (before' : List Declaration) (q' : Procedure) (after' : List Declaration) (d : Draft)
      (result : Except Halt SymbolTable), before'.length = before.length ∧ ∀ body span,
        (⟨before ++ .procedure { q with body } :: after, span⟩ : Program).buildTable options fresh
            output =
          ⟨(⟨before' ++ .procedure { q' with body } :: after', span⟩, d), result⟩ := by
  obtain ⟨table, hinitial, -⟩ := SymbolTable.exists_initial options.library
  obtain ⟨before', q', after', d, result, hlength, hrun⟩ := exists_threadAll_of_uniform
    (fun (q : Procedure) (body : List Stmt) => Declaration.procedure { q with body })
    (Declaration.exists_declare_of_body options q) before after ⟨table, fresh, output⟩
  simp only [buildTable, hinitial, hrun]
  cases result with
  | error halt => exact ⟨before', q', after', d, .error halt, hlength, fun _ _ => rfl⟩
  | ok _ =>
      exact ⟨before', q', after', d, d.table.entryPoint.map fun _ => d.table, hlength,
        fun _ _ => rfl⟩

/-! ### Diagnosing -/

/-- What is wrong with the body of a declaration, if it has one. -/
def Declaration.diagnostic? (table : SymbolTable) (d : Declaration) : Option Diagnostic :=
  match (d.check table).result with
  | .error (.diagnostic found) => some found
  | _ => none

namespace Program

variable {p : Program} {table : SymbolTable} {found : List Diagnostic}

/-- Diagnosing a program finds what is wrong with each of its bodies. -/
theorem found_of_diagnose (h : (p.diagnose table).result = .ok found) :
    found = p.declarations.filterMap (Declaration.diagnostic? table) := by
  obtain ⟨founds, hfounds, rfl⟩ := exists_founds_of_diagnose h
  clear h
  generalize p.declarations = ds at hfounds ⊢
  induction hfounds with
  | nil => rfl
  | @cons d found ds founds hd _ ih =>
      have hown : found = d.diagnostic? table := by
        rw [Declaration.diagnostic?]
        obtain ⟨rfl, a, ha⟩ | ⟨found, rfl, hfails⟩ := result_diagnosed_eq_ok_iff.mp hd
        · rw [ha]
        · rw [hfails]
      subst hown
      rw [List.filterMap_cons, List.filterMap_cons, ih]
      rfl

variable {before after : List Declaration} {d : Declaration}

theorem diagnose_of_split (h : (p.diagnose table).result = .ok found)
    (hp : p.declarations = before ++ d :: after) :
    (p.diagnose table).result = .ok (before.filterMap (Declaration.diagnostic? table) ++
      (d.diagnostic? table).toList ++ after.filterMap (Declaration.diagnostic? table)) := by
  rw [h, found_of_diagnose h, hp, List.filterMap_append, List.filterMap_cons, List.append_assoc]
  cases d.diagnostic? table <;> rfl

theorem declarations_diagnose_of_split (h : (p.diagnose table).result = .ok found)
    (hp : p.declarations = before ++ d :: after) :
    (p.diagnose table).after.declarations =
      before.map (fun d => (d.check table).after) ++
        (d.check table).after :: after.map fun d => (d.check table).after := by
  rw [declarations_diagnose h, hp, List.map_append, List.map_cons]

/-- Where diagnosing is possible, checking ends with an answer or with a diagnostic. -/
theorem settles_check_of_diagnose (h : (p.diagnose table).result = .ok found)
    (hd : d ∈ p.declarations) : Settles (d.check table).result fun _ => True := by
  obtain ⟨founds, hfounds, -⟩ := exists_founds_of_diagnose h
  clear h
  generalize p.declarations = ds at hfounds hd
  induction hfounds with
  | nil => exact absurd hd List.not_mem_nil
  | cons hfirst _ ih =>
      obtain rfl | hd := List.mem_cons.mp hd
      · obtain ⟨-, a, ha⟩ | ⟨_, -, hfails⟩ := result_diagnosed_eq_ok_iff.mp hfirst
        · rw [ha]
          trivial
        · rw [hfails]
          trivial
      · exact ih hd

end Program

/-! ### Other numbers -/

namespace Declaration

variable {table : SymbolTable} {d : Declaration} {k : Nat}

/-- With later numbers, a body is checked to the same end. -/
theorem check_later (h : Settles (d.check table).result fun _ => True) :
    (d.translate (.later k)).check (table.later k) =
      ⟨(d.check table).after.translate (.later k), (d.check table).result⟩ := by
  have hfollows : (d.check table).Follows (.later k) True (Image (translate (.later k))) (Image id)
      _ := d.follows_check table.follows_later Translation.faithful_later.identity
  rw [hfollows.eq_of_strict]
  have hresult : (d.check table).result.map id = (d.check table).result := by
    cases (d.check table).result <;> rfl
  rw [hresult, h.mapError_later]

theorem diagnostic?_later (h : Settles (d.check table).result fun _ => True) :
    (d.translate (.later k)).diagnostic? (table.later k) = d.diagnostic? table := by
  rw [diagnostic?, check_later h]
  rfl

variable {ds : List Declaration} (h : ∀ d ∈ ds, Settles (d.check table).result fun _ => True)
include h

theorem filterMap_diagnostic?_later :
    (ds.map (translate (.later k))).filterMap (diagnostic? (table.later k)) =
      ds.filterMap (diagnostic? table) := by
  rw [List.filterMap_map]
  exact List.filterMap_congr fun d hd => diagnostic?_later (h d hd)

theorem map_after_check_later :
    (ds.map (translate (.later k))).map (fun d => (d.check (table.later k)).after) =
      (ds.map fun d => (d.check table).after).map (translate (.later k)) := by
  rw [List.map_map, List.map_map]
  exact List.map_congr_left fun d hd => congrArg Outcome.after (check_later (h d hd))

end Declaration

/-! ### Programs that differ in one body -/

/-- Of two programs that were read and that differ in the body of one procedure
only, the builder says the same: it ends with the same error, or with the same
table and the same types in the declarations, but for the numbers of array types
if more of them are in use in one of the runs; and it writes the same listings.
Checking another declaration then has the same result and leaves the same. So
what diagnosing finds in the two programs differs in the entry of the one
procedure at most. -/
theorem edit_of_body {file file' : String} {tokens tokens' rest rest' : List Token}
    {p p' : Program} (hparse : parse file tokens = .ok p rest)
    (hparse' : parse file' tokens' = .ok p' rest') {before after : List Declaration}
    {q : Procedure} {body body' : List Stmt}
    (hp : p.declarations = before ++ .procedure { q with body } :: after)
    (hp' : p'.declarations = before ++ .procedure { q with body := body' } :: after)
    (options : Options) (fresh k : Nat) (output : Text.Sink) :
    let built := p.buildTable options fresh output
    let built' := p'.buildTable options (fresh + k) output
    let later := Declaration.translate (.later k)
    built'.result = built.result.map (.later k) ∧ built'.after.2.output = built.after.2.output ∧
      ∃ (before₁ : List Declaration) (q₁ : Procedure) (after₁ : List Declaration),
        let d := Declaration.procedure { q₁ with body }
        let d' := Declaration.procedure { q₁.translate (.later k) with body := body' }
        before₁.length = before.length ∧ built.after.1.declarations = before₁ ++ d :: after₁ ∧
        built'.after.1.declarations = before₁.map later ++ d' :: after₁.map later ∧
        ∀ table, built.result = .ok table →
          let table' := table.later k
          let found := List.filterMap (Declaration.diagnostic? table)
          let checked := List.map fun d => (Declaration.check table d).after
          (∀ other ∈ before₁ ++ after₁, (later other).check table' =
            ⟨later (other.check table).after, (other.check table).result⟩) ∧
          (built.after.1.diagnose table).result =
            .ok (found before₁ ++ (d.diagnostic? table).toList ++ found after₁) ∧
          (built'.after.1.diagnose table').result =
            .ok (found before₁ ++ (d'.diagnostic? table').toList ++ found after₁) ∧
          (built.after.1.diagnose table).after.declarations =
            checked before₁ ++ (d.check table).after :: checked after₁ ∧
          (built'.after.1.diagnose table').after.declarations =
            (checked before₁).map later ++
              (d'.check table').after :: (checked after₁).map later := by
  intro built built' later
  obtain ⟨before₁, q₁, after₁, draft, result, hlength, hrun⟩ :=
    Program.exists_buildTable_of_body options before after q fresh output
  have hfresh' := Program.fresh_of_parse hparse'
  have hbuilt : built = _ := (congrArg (fun ds =>
    (⟨ds, p.span⟩ : Program).buildTable options fresh output) hp).trans (hrun body p.span)
  have hbuilt₀ : p'.buildTable options fresh output = _ := (congrArg (fun ds =>
    (⟨ds, p'.span⟩ : Program).buildTable options fresh output) hp').trans (hrun body' p'.span)
  have hbuilt' : built' = _ := Program.buildTable_later hfresh' options fresh k output
  rw [hbuilt₀] at hbuilt'
  refine ⟨by rw [hbuilt, hbuilt'], by rw [hbuilt, hbuilt']; rfl, before₁, q₁, after₁, ?_⟩
  intro d d'
  have hds : built.after.1.declarations = before₁ ++ d :: after₁ := by rw [hbuilt]
  have hd' : later (.procedure { q₁ with body := body' }) = d' := by
    have hbody : ∀ s ∈ body', s.Fresh :=
      (hfresh' (.procedure { q with body := body' }) (hp' ▸ List.mem_append_cons_self)).body
    exact congrArg (fun body => Declaration.procedure { q₁.translate (.later k) with body })
      (Stmt.translateAll_later hbody)
  have hds' : built'.after.1.declarations = before₁.map later ++ d' :: after₁.map later := by
    rw [hbuilt', ← hd', ← List.map_cons, ← List.map_append]
    rfl
  refine ⟨hlength, hds, hds', ?_⟩
  intro table htable table' found checked
  have htable' : built'.result = .ok table' := by
    rw [hbuilt] at htable
    rw [hbuilt', show result = .ok table from htable]
    rfl
  obtain ⟨-, all, hall⟩ := exists_diagnose_of_fresh (Program.fresh_of_parse hparse) htable
  obtain ⟨-, all', hall'⟩ := exists_diagnose_of_fresh hfresh' htable'
  have hsettles := fun other => Program.settles_check_of_diagnose (d := other) hall
  rw [hds, List.forall_mem_append, List.forall_mem_cons] at hsettles
  obtain ⟨hbefore, -, hafter⟩ := hsettles
  have hfound := Program.diagnose_of_split hall' hds'
  rw [Declaration.filterMap_diagnostic?_later hbefore,
    Declaration.filterMap_diagnostic?_later hafter] at hfound
  have hchecked := Program.declarations_diagnose_of_split hall' hds'
  rw [Declaration.map_after_check_later hbefore, Declaration.map_after_check_later hafter]
    at hchecked
  refine ⟨fun other hother => Declaration.check_later ?_, Program.diagnose_of_split hall hds,
    hfound, Program.declarations_diagnose_of_split hall hds, hchecked⟩
  exact (List.mem_append.mp hother).elim (hbefore other) (hafter other)

/-- A call with its name, arguments and position, of other statements nothing. -/
def Stmt.call? : Stmt → Option (String × List Expr × Position)
  | call procedure arguments position => some (procedure, arguments, position)
  | _ => none

theorem Stmt.eq_call_of_call? {s : Stmt} {procedure : String} {arguments : List Expr}
    {position : Position} (h : s.call? = some (procedure, arguments, position)) :
    s = call procedure arguments position := by
  cases s with
  | call procedure' arguments' position' =>
      simp only [call?, Option.some.injEq, Prod.mk.injEq] at h
      obtain ⟨rfl, rfl, rfl⟩ := h
      rfl
  | _ => cases h

/-- A declaration without parameters and variables but for their number, and with
nothing of its body but the calls. -/
inductive Heading
  | type (name : String) (type : TypeExpr) (position : Position)
  | procedure (name : String) (arity : Nat) (position : Position)
      (calls : List (Option (String × List Expr × Position)))
  deriving DecidableEq

namespace Declaration

def heading : Declaration → Heading
  | type t => .type t.name t.type t.position
  | procedure q =>
    .procedure q.name (q.parameters.length + q.locals.length) q.position (q.body.map Stmt.call?)

theorem eq_type_of_heading {d : Declaration} {t : TypeDeclaration}
    (h : d.heading = (type t).heading) : d = type t := by
  cases d with
  | procedure q => cases h
  | type t' =>
      simp only [heading, Heading.type.injEq] at h
      obtain ⟨name, type, position⟩ := t'
      obtain ⟨rfl, rfl, rfl⟩ := h
      rfl

/-- Only the body is open if there are no parameters and variables. -/
theorem exists_body_of_heading {d : Declaration} {name : String} {position : Position}
    {calls : List (Option (String × List Expr × Position))}
    (h : d.heading = .procedure name 0 position calls) :
    ∃ body, d = procedure ⟨name, [], [], body, position⟩ ∧ body.map Stmt.call? = calls := by
  cases d with
  | type t => cases h
  | procedure q =>
      simp only [heading, Heading.procedure.injEq, Nat.add_eq_zero_iff,
        List.length_eq_zero_iff] at h
      obtain ⟨name, parameters, locals, body, position⟩ := q
      obtain ⟨rfl, ⟨rfl, rfl⟩, rfl, rfl⟩ := h
      exact ⟨body, rfl, rfl⟩

end Declaration

/-- The assignment to a variable that is not there is replaced by blanks, where an
array type is in use already. The two procedures call each other. -/
theorem edit_of_assignment : ∃ (p p' : Program) (before after : List Declaration)
      (q : Procedure) (body body' : List Stmt) (table : SymbolTable),
    parseSource
      "type t = array [2] of int; proc main() { x := 1; p(); } proc p() { main(); }" "a.spl" =
        .ok p ∧
    parseSource
      "type t = array [2] of int; proc main() {         p(); } proc p() { main(); }" "a.spl" =
        .ok p' ∧
    let built := p.buildTable .default 0 .unlimited
    let built' := p'.buildTable .default 1 .unlimited
    let later := Declaration.translate (.later 1)
    let d := Declaration.procedure { q with body }
    let d' := Declaration.procedure { q.translate (.later 1) with body := body' }
    let table' := table.later 1
    let found := List.filterMap (Declaration.diagnostic? table)
    built.after.1.declarations.map Declaration.name = ["t", "main", "p"] ∧ before.length = 1 ∧
      built.result = .ok table ∧ built'.result = built.result.map (.later 1) ∧
      built.after.1.declarations = before ++ d :: after ∧
      built'.after.1.declarations = before.map later ++ d' :: after.map later ∧
      (∀ other ∈ before ++ after, (later other).check table' =
        ⟨later (other.check table).after, (other.check table).result⟩) ∧
      (built.after.1.diagnose table).result =
        .ok (found before ++ (d.diagnostic? table).toList ++ found after) ∧
      (built'.after.1.diagnose table').result =
        .ok (found before ++ (d'.diagnostic? table').toList ++ found after) := by
  let t : TypeDeclaration :=
    ⟨"t", .array 2 (.named "int" ⟨22, "a.spl"⟩ none) ⟨9, "a.spl"⟩ none, ⟨0, "a.spl"⟩⟩
  let q : Procedure := ⟨"main", [], [], [], ⟨32, "a.spl"⟩⟩
  let r : Procedure := ⟨"p", [], [], [.call "main" [] ⟨67, "a.spl"⟩], ⟨61, "a.spl"⟩⟩
  let headings (calls : List (Option (String × List Expr × Position))) :=
    [(Declaration.type t).heading, .procedure "main" 0 q.position calls,
      (Declaration.procedure r).heading]
  have hshape : ∀ {ds calls}, ds.map Declaration.heading = headings calls →
      ∃ body, ds = [.type t] ++ .procedure { q with body } :: [.procedure r] := by
    intro ds calls h
    obtain ⟨d, ds, rfl, hd, h⟩ := List.map_eq_cons_iff.mp h
    obtain ⟨d', ds, rfl, hd', h⟩ := List.map_eq_cons_iff.mp h
    obtain ⟨d'', ds, rfl, hd'', h⟩ := List.map_eq_cons_iff.mp h
    obtain rfl := List.map_eq_nil_iff.mp h
    obtain rfl := Declaration.eq_type_of_heading hd
    obtain ⟨body, rfl, -⟩ := Declaration.exists_body_of_heading hd'
    obtain ⟨calls', rfl, hcalls⟩ := Declaration.exists_body_of_heading hd''
    obtain ⟨s, rest, rfl, hs, hrest⟩ := List.map_eq_cons_iff.mp hcalls
    obtain rfl := List.map_eq_nil_iff.mp hrest
    obtain rfl := Stmt.eq_call_of_call? hs
    exact ⟨body, rfl⟩
  have hread : ((parseSource
      "type t = array [2] of int; proc main() { x := 1; p(); } proc p() { main(); }"
      "a.spl").toOption.map fun p =>
        (p.declarations.map Declaration.heading,
          (p.buildTable .default 0 .unlimited).after.1.declarations.map Declaration.name,
          (p.buildTable .default 0 .unlimited).result.toOption.isSome)) =
      some (headings [none, some ("p", [], ⟨49, "a.spl"⟩)], ["t", "main", "p"], true) := by
    decide +kernel
  have hread' : ((parseSource
      "type t = array [2] of int; proc main() {         p(); } proc p() { main(); }"
      "a.spl").toOption.map fun p => p.declarations.map Declaration.heading) =
      some (headings [some ("p", [], ⟨49, "a.spl"⟩)]) := by
    decide +kernel
  obtain ⟨tokens, rest, p, htokens, hparse, hview⟩ := exists_parse_of_map hread
  obtain ⟨tokens', rest', p', htokens', hparse', hp'⟩ := exists_parse_of_map hread'
  obtain ⟨hp, hrest⟩ := Prod.mk.inj hview
  obtain ⟨hnames, hok⟩ := Prod.mk.inj hrest
  obtain ⟨body, hp⟩ := hshape hp
  obtain ⟨body', hp'⟩ := hshape hp'
  obtain ⟨table, htable⟩ := exists_ok_of_isSome hok
  obtain ⟨hresult, -, before, q₁, after, hlength, hds, hds', hsame⟩ :=
    edit_of_body hparse hparse' hp hp' .default 0 1 .unlimited
  obtain ⟨hothers, hfound, hfound', -⟩ := hsame table htable
  exact ⟨p, p', before, after, q₁, body, body', table,
    parseSource_eq_ok_iff.mpr ⟨tokens, rest, htokens, hparse⟩,
    parseSource_eq_ok_iff.mpr ⟨tokens', rest', htokens', hparse'⟩, hnames, hlength, htable, hresult,
    hds, hds', hothers, hfound, hfound'⟩

end Spl
