import Spl.Proofs.Scope.Regular
import Spl.Proofs.Typing.Checker

/-!
The checker on statements, on the bodies of procedures and on programs. It
accepts exactly the bodies that keep the rules of typing.
-/

namespace Spl

variable {Γ : Context}

/-! ### Arguments -/

/-- The arguments of a call, what the checker leaves of them, and their types. -/
inductive ArgumentsChecked (Γ : Context) : List Expr → List Expr → List Ty → Prop
  | nil : ArgumentsChecked Γ [] [] []
  | cons {e after : Expr} {ty : Ty} {es afters : List Expr} {tys : List Ty}
      (h : e.Checked Γ after ty) (hs : ArgumentsChecked Γ es afters tys) :
      ArgumentsChecked Γ (e :: es) (after :: afters) (ty :: tys)

theorem ArgumentsChecked.length_eq {es afters : List Expr} {tys : List Ty}
    (h : ArgumentsChecked Γ es afters tys) : afters.length = es.length := by
  induction h with
  | nil => rfl
  | cons _ _ ih => rw [List.length_cons, List.length_cons, ih]

theorem ArgumentsChecked.annotated {es afters : List Expr} {tys : List Ty}
    (h : ArgumentsChecked Γ es afters tys) (procedure : String) (first : Nat) :
    ∀ spot ∈ argumentSpots procedure first afters, spot.Annotated Γ := by
  induction h generalizing first with
  | nil => exact fun spot hspot => absurd hspot List.not_mem_nil
  | cons h _ ih =>
      rw [argumentSpots]
      exact List.forall_mem_append.mpr ⟨h.annotated _, ih _⟩

theorem settles_visitAll_check (hΓ : Γ.Valid) (es : List Expr) (hes : ∀ e ∈ es, e.Fresh) :
    (Outcome.visitAll (Expr.check Γ) es).Settles (ArgumentsChecked Γ es) := by
  apply Outcome.Settles.visitAll .nil
  intro e es' he
  apply Outcome.Settles.mono (Expr.settles_check hΓ e (hes e he))
  exact fun after ty h afters tys hs => .cons h hs

/-- An argument that was compared with its parameter without complaint is one
that the parameter takes. -/
theorem settles_argumentsAgree {es afters : List Expr} {tys : List Ty}
    (h : ArgumentsChecked Γ es afters tys) {formals : List Formal}
    (hlength : formals.length = es.length) (procedure : String) (position : Position)
    (index : Nat) :
    Settles (argumentsAgree procedure position index formals afters tys) fun _ =>
      List.Forall₂ (Formal.Takes Γ) formals es ∧
        List.Forall₂ (Formal.Takes Γ) formals afters := by
  induction h generalizing formals index with
  | nil =>
      obtain rfl := List.length_eq_zero_iff.mp hlength
      exact ⟨.nil, .nil⟩
  | cons h _ ih =>
      match formals, hlength with
      | formal :: formals, hlength =>
          rw [argumentsAgree]
          split
          · trivial
          · next hreference =>
              split
              · trivial
              · next hsame =>
                  rw [Bool.not_eq_true, Bool.not_eq_false'] at hsame
                  have hvariable : formal.byReference = true → _ := fun hby => by
                    simpa [hby] using hreference
                  apply Settles.mono (ih (Nat.succ.inj hlength) (index + 1))
                  rintro - ⟨hes, hafters⟩
                  refine ⟨.cons ⟨_, h.hasType, hsame, ?_⟩ hes,
                    .cons ⟨_, h.hasType_after, hsame, hvariable⟩ hafters⟩
                  rw [← h.isVariable]
                  exact hvariable

theorem argumentsAgree_of_takes {es afters : List Expr} {tys : List Ty}
    (h : ArgumentsChecked Γ es afters tys) {formals : List Formal}
    (htakes : List.Forall₂ (Formal.Takes Γ) formals es) (procedure : String)
    (position : Position) (index : Nat) :
    argumentsAgree procedure position index formals afters tys = .ok () := by
  induction h generalizing formals index with
  | nil =>
      cases htakes
      rfl
  | cons h _ ih =>
      cases htakes with
      | cons htake htakes =>
          obtain ⟨ty, hty, hsame, hvariable⟩ := htake
          obtain rfl := hty.unique h.hasType
          rw [← h.isVariable] at hvariable
          rw [argumentsAgree, if_neg, if_neg, ih htakes]
          · simp [hsame]
          · simpa using hvariable

theorem exists_hasType_of_takes {formals : List Formal} {es : List Expr}
    (h : List.Forall₂ (Formal.Takes Γ) formals es) : ∀ e ∈ es, ∃ ty, e.HasType Γ ty := by
  induction h with
  | nil => exact fun e he => absurd he List.not_mem_nil
  | cons htake _ ih =>
      obtain ⟨ty, hty, -⟩ := htake
      exact List.forall_mem_cons.mpr ⟨⟨ty, hty⟩, ih⟩

theorem settles_callable {es afters : List Expr} {tys : List Ty}
    (h : ArgumentsChecked Γ es afters tys) (signature : Signature) (procedure : String)
    (position : Position) :
    Settles (callable signature procedure afters tys position) fun _ =>
      List.Forall₂ (Formal.Takes Γ) signature.formals es ∧
        List.Forall₂ (Formal.Takes Γ) signature.formals afters := by
  rw [callable]
  split
  · trivial
  · next hmany =>
      split
      · trivial
      · next hfew =>
          refine settles_argumentsAgree h ?_ procedure position 0
          rw [← h.length_eq]
          omega

theorem callable_of_takes {es afters : List Expr} {tys : List Ty}
    (h : ArgumentsChecked Γ es afters tys) {signature : Signature}
    (htakes : List.Forall₂ (Formal.Takes Γ) signature.formals es) (procedure : String)
    (position : Position) : callable signature procedure afters tys position = .ok () := by
  have hlength : signature.formals.length = afters.length := by
    rw [h.length_eq, htakes.length_eq]
  rw [callable, if_neg (by omega), if_neg (by omega), argumentsAgree_of_takes h htakes]

/-! ### Statements -/

/-- What the checker leaves of a statement that keeps the rules. -/
structure Stmt.Checked (Γ : Context) (s after : Stmt) : Prop where
  wellTyped : s.WellTyped Γ
  wellTyped_after : after.WellTyped Γ
  annotated : ∀ spot ∈ after.spots, spot.Annotated Γ

/-- What the checker leaves of statements in a row. -/
structure BodyChecked (Γ : Context) (ss afters : List Stmt) : Prop where
  wellTyped : ∀ s ∈ ss, s.WellTyped Γ
  wellTyped_after : ∀ s ∈ afters, s.WellTyped Γ
  annotated : ∀ spot ∈ spotsOfAll afters, spot.Annotated Γ

theorem settles_checkCondition (hΓ : Γ.Valid) {condition : Expr} (hfresh : condition.Fresh)
    (cause : String → Cause) (position : Position) :
    (checkCondition Γ condition cause position).Settles fun after _ =>
      condition.Checked Γ after .bool := by
  apply Outcome.Settles.andThen
  apply Outcome.Settles.mono (Expr.settles_check hΓ condition hfresh)
  intro after ty h
  change Settles _ _
  dsimp only
  split
  · next hbool =>
      obtain rfl := Ty.isBool_iff.mp hbool
      exact h
  · trivial

theorem checkCondition_of_hasType (hΓ : Γ.Valid) {condition : Expr} (hfresh : condition.Fresh)
    (h : condition.HasType Γ .bool) (cause : String → Cause) (position : Position) :
    (checkCondition Γ condition cause position).result = .ok () := by
  rw [checkCondition, Outcome.result_andThen_eq_ok_iff]
  exact ⟨.bool, Expr.check_of_hasType hΓ condition hfresh h, rfl⟩

theorem settles_assignable {targetTy valueTy : Ty} (position : Position) :
    Settles (assignable targetTy valueTy position) fun _ => targetTy = .int ∧ valueTy = .int := by
  rw [assignable]
  split
  · trivial
  · next hsame =>
      split
      · trivial
      · next hint =>
          rw [Bool.not_eq_true, Bool.not_eq_false'] at hsame hint
          obtain rfl := Ty.isInt_iff.mp hint
          exact ⟨rfl, Ty.same_int_iff.mp hsame⟩

mutual

theorem Stmt.settles_check (hΓ : Γ.Valid) :
    (s : Stmt) → s.Fresh → (s.check Γ).Settles fun after _ => s.Checked Γ after
  | .empty position, _ => ⟨.empty, .empty, fun _ hspot => absurd hspot List.not_mem_nil⟩
  | .compound body position, .compound hbody => by
      apply Outcome.Settles.map
      apply Outcome.Settles.mono (settles_checkAll hΓ body hbody)
      intro after _ h
      exact ⟨.compound h.wellTyped, .compound h.wellTyped_after, h.annotated⟩
  | .assign target value position, .assign htarget hvalue => by
      apply Outcome.Settles.andThen
      apply Outcome.Settles.mono (Variable.settles_check hΓ target htarget)
      intro target' targetTy ht
      apply Outcome.Settles.andThen
      apply Outcome.Settles.mono (Expr.settles_check hΓ value hvalue)
      intro value' valueTy hv
      apply Settles.mono (settles_assignable position)
      rintro - ⟨rfl, rfl⟩
      refine ⟨.assign ht.hasType hv.hasType, .assign ht.hasType_after hv.hasType_after, ?_⟩
      exact List.forall_mem_append.mpr ⟨ht.annotated _, hv.annotated _⟩
  | .call procedure arguments position, .call harguments => by
      have hname := Context.settles_procedureNamed hΓ procedure position
      rw [Stmt.check]
      split
      · next halt hhalt =>
          rw [hhalt] at hname
          exact Outcome.Settles.error hname _
      · next signature hsignature =>
          have hmeans := hname.of_ok hsignature
          apply Outcome.Settles.andThen
          apply Outcome.Settles.mono (settles_visitAll_check hΓ arguments harguments)
          intro afters tys h
          apply Settles.mono (settles_callable h signature procedure position)
          rintro - ⟨hes, hafters⟩
          exact ⟨.call hmeans hes, .call hmeans hafters, h.annotated procedure 0⟩
  | .conditional condition thenBranch elseBranch position, .conditional hc ht he => by
      apply Outcome.Settles.andThen
      apply Outcome.Settles.mono (settles_checkCondition hΓ hc _ position)
      intro condition' _ hcondition
      apply Outcome.Settles.andThen
      apply Outcome.Settles.mono (Stmt.settles_check hΓ thenBranch ht)
      intro thenBranch' _ hthen
      apply Outcome.Settles.map
      apply Outcome.Settles.mono (Stmt.settles_check hΓ elseBranch he)
      intro elseBranch' _ helse
      refine ⟨.conditional hcondition.hasType hthen.wellTyped helse.wellTyped,
        .conditional hcondition.hasType_after hthen.wellTyped_after helse.wellTyped_after, ?_⟩
      exact List.forall_mem_append.mpr ⟨hcondition.annotated _,
        List.forall_mem_append.mpr ⟨hthen.annotated, helse.annotated⟩⟩
  | .loop condition body position, .loop hc hb => by
      apply Outcome.Settles.andThen
      apply Outcome.Settles.mono (settles_checkCondition hΓ hc _ position)
      intro condition' _ hcondition
      apply Outcome.Settles.map
      apply Outcome.Settles.mono (Stmt.settles_check hΓ body hb)
      intro body' _ hbody
      refine ⟨.loop hcondition.hasType hbody.wellTyped,
        .loop hcondition.hasType_after hbody.wellTyped_after, ?_⟩
      exact List.forall_mem_append.mpr ⟨hcondition.annotated _, hbody.annotated⟩

theorem settles_checkAll (hΓ : Γ.Valid) :
    (ss : List Stmt) → (∀ s ∈ ss, s.Fresh) →
      (Stmt.checkAll Γ ss).Settles fun afters _ => BodyChecked Γ ss afters
  | [], _ => by
      refine ⟨?_, ?_, ?_⟩ <;> exact fun _ h => absurd h List.not_mem_nil
  | s :: ss, hfresh => by
      obtain ⟨hs, hss⟩ := List.forall_mem_cons.mp hfresh
      apply Outcome.Settles.andThen
      apply Outcome.Settles.mono (Stmt.settles_check hΓ s hs)
      intro after _ h
      apply Outcome.Settles.map
      apply Outcome.Settles.mono (settles_checkAll hΓ ss hss)
      intro afters _ hrest
      exact ⟨List.forall_mem_cons.mpr ⟨h.wellTyped, hrest.wellTyped⟩,
        List.forall_mem_cons.mpr ⟨h.wellTyped_after, hrest.wellTyped_after⟩,
        List.forall_mem_append.mpr ⟨h.annotated, hrest.annotated⟩⟩

end

mutual

theorem Stmt.check_of_wellTyped (hΓ : Γ.Valid) :
    (s : Stmt) → s.Fresh → s.WellTyped Γ → (s.check Γ).result = .ok ()
  | .empty position, _, _ => rfl
  | .compound body position, .compound hbody, .compound h => by
      rw [Stmt.check, Outcome.result_map, checkAll_of_wellTyped hΓ body hbody h]
      rfl
  | .assign target value position, .assign htarget hvalue, .assign ht hv => by
      rw [Stmt.check, Outcome.result_andThen_eq_ok_iff]
      refine ⟨.int, Variable.check_of_hasType hΓ target htarget ht, ?_⟩
      rw [Outcome.result_andThen_eq_ok_iff]
      exact ⟨.int, Expr.check_of_hasType hΓ value hvalue hv, rfl⟩
  | .call procedure arguments position, .call harguments, .call hp ha => by
      have hchecks : ∀ e ∈ arguments, ∃ ty, (e.check Γ).result = .ok ty := by
        intro e he
        obtain ⟨ty, hty⟩ := exists_hasType_of_takes ha e he
        exact ⟨ty, Expr.check_of_hasType hΓ e (harguments e he) hty⟩
      obtain ⟨tys, htys⟩ := Outcome.visitAll_eq_ok hchecks
      rw [Stmt.check, Context.procedureNamed_of_means hΓ hp position]
      dsimp only
      rw [Outcome.result_andThen_eq_ok_iff]
      exact ⟨tys, htys, callable_of_takes
        ((settles_visitAll_check hΓ arguments harguments).of_ok htys) ha procedure position⟩
  | .conditional condition thenBranch elseBranch position, .conditional hc ht he,
      .conditional hcondition hthen helse => by
      rw [Stmt.check, Outcome.result_andThen_eq_ok_iff]
      refine ⟨(), checkCondition_of_hasType hΓ hc hcondition _ position, ?_⟩
      rw [Outcome.result_andThen_eq_ok_iff]
      refine ⟨(), Stmt.check_of_wellTyped hΓ thenBranch ht hthen, ?_⟩
      rw [Outcome.result_map, Stmt.check_of_wellTyped hΓ elseBranch he helse]
      rfl
  | .loop condition body position, .loop hc hb, .loop hcondition hbody => by
      rw [Stmt.check, Outcome.result_andThen_eq_ok_iff]
      refine ⟨(), checkCondition_of_hasType hΓ hc hcondition _ position, ?_⟩
      rw [Outcome.result_map, Stmt.check_of_wellTyped hΓ body hb hbody]
      rfl

theorem checkAll_of_wellTyped (hΓ : Γ.Valid) :
    (ss : List Stmt) → (∀ s ∈ ss, s.Fresh) → (∀ s ∈ ss, s.WellTyped Γ) →
      (Stmt.checkAll Γ ss).result = .ok ()
  | [], _, _ => rfl
  | s :: ss, hfresh, h => by
      obtain ⟨hs, hss⟩ := List.forall_mem_cons.mp hfresh
      obtain ⟨hwell, hwells⟩ := List.forall_mem_cons.mp h
      rw [Stmt.checkAll, Outcome.result_andThen_eq_ok_iff]
      refine ⟨(), Stmt.check_of_wellTyped hΓ s hs hwell, ?_⟩
      rw [Outcome.result_map, checkAll_of_wellTyped hΓ ss hss hwells]
      rfl

end

/-! ### Procedures -/

/-- All nodes of the body carry the types that the rules give them in the
scope that the table has for the procedure's name. -/
def Procedure.Annotated (table : SymbolTable) (p : Procedure) : Prop :=
  ∃ signature, table.get .global p.name = .ok (some (.procedure signature)) ∧
    ∀ spot ∈ p.spots, spot.Annotated ⟨table, signature.scope⟩

/-- What the checker leaves of a procedure that keeps the rules. -/
structure Procedure.Checked (table : SymbolTable) (p after : Procedure) : Prop where
  wellTyped : p.WellTyped table
  wellTyped_after : after.WellTyped table
  annotated : after.Annotated table

theorem SymbolTable.procedure?_eq_ok_some_iff {t : SymbolTable} {name : String}
    {signature : Signature} :
    t.procedure? name = .ok (some signature) ↔
      t.get .global name = .ok (some (.procedure signature)) := by
  rw [procedure?]
  match t.get .global name with
  | .error _ => simp [Except.map]
  | .ok none => simp [Except.map]
  | .ok (some (.type _)) => simp [Except.map]
  | .ok (some (.var _ _)) => simp [Except.map]
  | .ok (some (.procedure _)) => simp [Except.map]

theorem SymbolTable.Regular.exists_procedure? {t : SymbolTable} (h : t.Regular) (name : String) :
    ∃ found, t.procedure? name = .ok found := by
  obtain ⟨found, hfound⟩ : ∃ found, t.get .global name = .ok found := exists_get h.size_pos name
  rw [procedure?, hfound]
  exact ⟨_, rfl⟩

theorem Procedure.settles_check {table : SymbolTable} (ht : table.Regular) {p : Procedure}
    (hfresh : ∀ s ∈ p.body, s.Fresh) :
    (p.check table).Settles fun after _ => p.Checked table after := by
  obtain ⟨found, hfound⟩ := ht.exists_procedure? p.name
  rw [Procedure.check, hfound]
  match found, hfound with
  | none, _ => trivial
  | some signature, hfound =>
      have hget := SymbolTable.procedure?_eq_ok_some_iff.mp hfound
      have hΓ : Context.Valid ⟨table, signature.scope⟩ := ht.valid (ht.entry_of_get hget).1
      apply Outcome.Settles.map
      apply Outcome.Settles.mono (settles_checkAll hΓ p.body hfresh)
      intro after _ h
      exact ⟨⟨signature, hget, h.wellTyped⟩, ⟨signature, hget, h.wellTyped_after⟩,
        ⟨signature, hget, h.annotated⟩⟩

theorem Procedure.check_of_wellTyped {table : SymbolTable} (ht : table.Regular) {p : Procedure}
    (hfresh : ∀ s ∈ p.body, s.Fresh) (h : p.WellTyped table) :
    (p.check table).result = .ok () := by
  obtain ⟨signature, hget, hbody⟩ := h
  have hΓ : Context.Valid ⟨table, signature.scope⟩ := ht.valid (ht.entry_of_get hget).1
  rw [Procedure.check, SymbolTable.procedure?_eq_ok_some_iff.mpr hget]
  dsimp only
  rw [Outcome.result_map, checkAll_of_wellTyped hΓ p.body hfresh hbody]
  rfl

/-! ### Programs -/

/-- The bodies of a program carry no types yet. -/
def Program.FreshBodies (p : Program) : Prop :=
  ∀ q ∈ p.procedures, ∀ s ∈ q.body, s.Fresh

theorem Declaration.settles_check {table : SymbolTable} (ht : table.Regular) {d : Declaration}
    (hfresh : ∀ q, d.procedure? = some q → ∀ s ∈ q.body, s.Fresh) :
    (d.check table).Settles fun after _ =>
      Option.Rel (Procedure.Checked table) d.procedure? after.procedure? := by
  cases d with
  | type d => exact .none
  | procedure d =>
      apply Outcome.Settles.map
      apply Outcome.Settles.mono (Procedure.settles_check ht (hfresh d rfl))
      exact fun after _ h => .some h

/-- On a program without types in its bodies the checker never faults, and
what it accepts keeps the rules, procedure by procedure. -/
theorem Program.settles_check {table : SymbolTable} (ht : table.Regular) {p : Program}
    (hfresh : p.FreshBodies) :
    (p.check table).Settles fun after _ =>
      List.Forall₂ (Procedure.Checked table) p.procedures after.procedures := by
  apply Outcome.Settles.map
  apply Outcome.Settles.mono (Outcome.Settles.visitAll (R := fun ds after _ =>
    List.Forall₂ (fun d d' => Option.Rel (Procedure.Checked table) d.procedure? d'.procedure?)
      ds after) .nil ?_)
  · intro after _ h
    exact List.rel_filterMap (fun d d' hd => hd) h
  · intro d ds hd
    have hbody : ∀ q, d.procedure? = some q → ∀ s ∈ q.body, s.Fresh := fun q hq =>
      hfresh q (List.mem_filterMap.mpr ⟨d, hd, hq⟩)
    apply Outcome.Settles.mono (Declaration.settles_check ht hbody)
    exact fun d' _ h ds' _ hs => .cons h hs

theorem Program.check_of_wellTyped {table : SymbolTable} (ht : table.Regular) {p : Program}
    (hfresh : p.FreshBodies) (h : p.WellTyped table) : (p.check table).result = .ok () := by
  have hchecks : ∀ d ∈ p.declarations, ∃ a, (d.check table).result = .ok a := by
    intro d hd
    cases d with
    | type d => exact ⟨(), rfl⟩
    | procedure q =>
        have hq : q ∈ p.procedures := List.mem_filterMap.mpr ⟨_, hd, rfl⟩
        refine ⟨(), ?_⟩
        rw [Declaration.check, Outcome.result_map,
          Procedure.check_of_wellTyped ht (hfresh q hq) (h q hq)]
        rfl
  obtain ⟨as, has⟩ := Outcome.visitAll_eq_ok hchecks
  rw [Program.check, Outcome.result_map, has]
  rfl

/-- The checker accepts exactly the programs that keep the rules. -/
theorem Program.check_eq_ok_iff {table : SymbolTable} (ht : table.Regular) {p : Program}
    (hfresh : p.FreshBodies) : (p.check table).result = .ok () ↔ p.WellTyped table := by
  constructor
  · intro h q hq
    have hchecked := (Program.settles_check ht hfresh).of_ok h
    have hleft : List.Forall₂ (fun q q' => q.WellTyped table ∧ Procedure.Checked table q q')
        p.procedures (p.check table).after.procedures :=
      hchecked.imp fun q q' hq => ⟨hq.wellTyped, hq⟩
    exact ((List.forall₂_and_left _ _).mp hleft).1 q hq
  · exact Program.check_of_wellTyped ht hfresh

/-- What the checker accepts keeps the rules also with the types written into
it, and all its nodes carry the types that the rules give them. -/
theorem Program.after_check_of_ok {table : SymbolTable} (ht : table.Regular) {p : Program}
    (hfresh : p.FreshBodies) (h : (p.check table).result = .ok ()) :
    (p.check table).after.WellTyped table ∧
      ∀ q ∈ (p.check table).after.procedures, q.Annotated table := by
  have hchecked := ((Program.settles_check ht hfresh).of_ok h).flip
  have hright : List.Forall₂ (fun q' q => (q'.WellTyped table ∧ q'.Annotated table) ∧
      Procedure.Checked table q q') (p.check table).after.procedures p.procedures :=
    hchecked.imp fun q' q hq => ⟨⟨hq.wellTyped_after, hq.annotated⟩, hq⟩
  have hall := ((List.forall₂_and_left _ _).mp hright).1
  exact ⟨fun q hq => (hall q hq).1, fun q hq => (hall q hq).2⟩

end Spl
