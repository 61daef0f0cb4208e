import Spl.Proofs.Annotation.Steps
import Spl.Proofs.Typing.Bodies

/-!
The checker makes the steps of a body in their order. On a body without types
it either makes all of them, or it stops at the first that does not hold.
-/

namespace Spl

variable {Γ : Context}

/-! ### Names that mean nothing of the kind -/

theorem Context.not_means_variable (hΓ : Γ.Valid) {name : String} {position : Position}
    {halt : Halt} (h : Γ.variableNamed name position = .error halt) (ty : Ty) (byReference : Bool) :
    ¬Γ.Means name (.var ty byReference) := by
  intro hmeans
  rw [variableNamed_of_means hΓ hmeans position] at h
  cases h

theorem Context.not_means_procedure (hΓ : Γ.Valid) {name : String} {position : Position}
    {halt : Halt} (h : Γ.procedureNamed name position = .error halt) (signature : Signature) :
    ¬Γ.Means name (.procedure signature) := by
  intro hmeans
  rw [procedureNamed_of_means hΓ hmeans position] at h
  cases h

/-! ### Expressions and variables -/

/-- What the checker leaves of an expression that it has found a type for. -/
structure Expr.Evaluated (Γ : Context) (after : Expr) (ty : Ty) : Prop where
  hasType : after.HasType Γ ty
  done : ∀ step ∈ after.steps, step.Done Γ

structure Variable.Evaluated (Γ : Context) (after : Variable) (ty : Ty) : Prop where
  hasType : after.HasType Γ ty
  done : ∀ step ∈ after.steps, step.Done Γ

/-- An expression carries its type once all its parts do. -/
theorem Expr.Evaluated.of_parts {e : Expr} {ty : Ty} {parts : List Step} (h : e.HasType Γ ty)
    (hty : e.ty = some ty) (hsteps : e.steps = parts ++ [.expr e])
    (hparts : ∀ step ∈ parts, step.Done Γ) : e.Evaluated Γ ty := by
  refine ⟨h, ?_⟩
  rw [hsteps]
  exact forall_mem_concat hparts ⟨ty, h, hty⟩

theorem Variable.Evaluated.of_parts {v : Variable} {ty : Ty} {parts : List Step}
    (h : v.HasType Γ ty) (hty : v.ty = some ty) (hsteps : v.steps = parts ++ [.var v])
    (hparts : ∀ step ∈ parts, step.Done Γ) : v.Evaluated Γ ty := by
  refine ⟨h, ?_⟩
  rw [hsteps]
  exact forall_mem_concat hparts ⟨ty, h, hty⟩

mutual

theorem Expr.steps_of_check (hΓ : Γ.Valid) :
    (e : Expr) → e.Fresh →
      (e.check Γ).SettlesOr (Expr.Evaluated Γ) fun after => Stopped Γ after.steps
  | .int value position slot, hfresh => by
      obtain rfl := hfresh
      exact Outcome.SettlesOr.write (.of_parts .int rfl rfl fun _ h => absurd h List.not_mem_nil)
  | .var v position slot, hfresh => by
      obtain ⟨hv, rfl⟩ := hfresh
      apply Outcome.SettlesOr.andThen
      apply (Variable.steps_of_check hΓ v hv).mono
      · intro v' ty h
        exact Outcome.SettlesOr.write (.of_parts (.var h.hasType) rfl rfl h.done)
      · intro v' h
        exact h.concat rfl
  | .unary .minus operand position slot, hfresh => by
      obtain ⟨hoperand, rfl⟩ := hfresh
      apply Outcome.SettlesOr.andThen
      apply (Expr.steps_of_check hΓ operand hoperand).mono
      · intro operand' ty h
        split
        · next hint =>
            obtain rfl := Ty.isInt_iff.mp hint
            exact Outcome.SettlesOr.write (.of_parts (.minus h.hasType) rfl rfl h.done)
        · next hint =>
            refine Stopped.prepend (.last ?_ rfl) h.done
            rintro ⟨_, hminus⟩
            cases hminus with
            | minus hoperand' => exact hint (Ty.isInt_iff.mpr (h.hasType.unique hoperand'))
      · intro operand' h
        exact h.concat rfl
  | .binary op left right position slot, hfresh => by
      obtain ⟨hleft, hright, rfl⟩ := hfresh
      apply Outcome.SettlesOr.andThen
      apply (Expr.steps_of_check hΓ left hleft).mono
      · intro left' leftTy hl
        apply Outcome.SettlesOr.andThen
        apply (Expr.steps_of_check hΓ right hright).mono
        · intro right' rightTy hr
          have hparts : ∀ step ∈ left'.steps ++ right'.steps, step.Done Γ :=
            List.forall_mem_append.mpr ⟨hl.done, hr.done⟩
          split
          · next hint =>
              rw [Bool.and_eq_true, Ty.isInt_iff] at hint
              obtain ⟨hsame, rfl⟩ := hint
              obtain rfl := Ty.same_int_iff.mp hsame
              have hbinary : Expr.HasType Γ (.binary op left' right' position (some op.resultTy))
                  op.resultTy :=
                Expr.hasType_binary_iff.mpr ⟨hl.hasType, hr.hasType, op.resultTy_eq⟩
              exact Outcome.SettlesOr.write (.of_parts hbinary rfl (by simp [Expr.steps]) hparts)
          · next hint =>
              refine Stopped.prepend (Stopped.prepend (.last ?_ rfl) hr.done) hl.done
              rintro ⟨_, hbinary⟩
              obtain ⟨hleft', hright', -⟩ := Expr.hasType_binary_iff.mp hbinary
              obtain rfl := hl.hasType.unique hleft'
              obtain rfl := hr.hasType.unique hright'
              exact hint rfl
        · intro right' hr
          exact Stopped.prepend (hr.concat rfl) hl.done
      · intro left' hl
        -- The right operand has not been looked at.
        exact hl.append (forall_mem_concat (right.unset_of_fresh hright) rfl)

theorem Variable.steps_of_check (hΓ : Γ.Valid) :
    (v : Variable) → v.Fresh →
      (v.check Γ).SettlesOr (Variable.Evaluated Γ) fun after => Stopped Γ after.steps
  | .named name position slot, hfresh => by
      obtain rfl := hfresh
      have hname := Context.settles_variableNamed hΓ name position
      rw [Variable.check]
      split
      · next ty hty =>
          obtain ⟨byReference, hmeans⟩ := hname.of_ok hty
          exact Outcome.SettlesOr.write
            (.of_parts (.named hmeans) rfl rfl fun _ h => absurd h List.not_mem_nil)
      · next halt hhalt =>
          rw [hhalt] at hname
          apply Outcome.SettlesOr.error hname
          refine .last ?_ rfl
          rintro ⟨ty, hnamed⟩
          cases hnamed with
          | named hmeans => exact Context.not_means_variable hΓ hhalt _ _ hmeans
  | .element array index position slot, hfresh => by
      obtain ⟨harray, hindex, rfl⟩ := hfresh
      apply Outcome.SettlesOr.andThen
      apply (Variable.steps_of_check hΓ array harray).mono
      · intro array' arrayTy ha
        apply Outcome.SettlesOr.andThen
        apply (Expr.steps_of_check hΓ index hindex).mono
        · intro index' indexTy hi
          have hstop : (∀ identity size ty, arrayTy = .array identity size ty → indexTy ≠ .int) →
              Stopped Γ (Variable.element array' index' position none).steps := by
            intro hnot
            refine Stopped.prepend (Stopped.prepend (.last ?_ rfl) hi.done) ha.done
            rintro ⟨ty, helement⟩
            cases helement with
            | element ha' hi' =>
                exact hnot _ _ _ (ha.hasType.unique ha') (hi.hasType.unique hi')
          split
          · next hnone =>
              apply hstop
              rintro identity size ty rfl
              cases hnone
          · next elementTy helement =>
              obtain ⟨identity, size, rfl⟩ := Ty.element?_eq_some_iff.mp helement
              split
              · next hint =>
                  obtain rfl := Ty.isInt_iff.mp hint
                  exact Outcome.SettlesOr.write (.of_parts (.element ha.hasType hi.hasType) rfl
                    (by simp [Variable.steps]) (List.forall_mem_append.mpr ⟨ha.done, hi.done⟩))
              · next hint =>
                  apply hstop
                  rintro _ _ _ - rfl
                  exact hint rfl
        · intro index' hi
          exact Stopped.prepend (hi.concat rfl) ha.done
      · intro array' ha
        exact ha.append (forall_mem_concat (index.unset_of_fresh hindex) rfl)

end

/-! ### Arguments -/

theorem steps_of_visitAll (hΓ : Γ.Valid) (es : List Expr) (hes : ∀ e ∈ es, e.Fresh) :
    (Outcome.visitAll (Expr.check Γ) es).SettlesOr
      (fun afters _ => ∀ step ∈ afters.flatMap Expr.steps, step.Done Γ)
      fun afters => Stopped Γ (afters.flatMap Expr.steps) := by
  induction es with
  | nil => exact fun _ h => absurd h List.not_mem_nil
  | cons e es ih =>
      obtain ⟨he, hes⟩ := List.forall_mem_cons.mp hes
      apply Outcome.SettlesOr.andThen
      apply (Expr.steps_of_check hΓ e he).mono
      · intro after ty h
        apply Outcome.SettlesOr.map
        apply (ih hes).mono
        · intro afters tys hs
          exact List.forall_mem_append.mpr ⟨h.done, hs⟩
        · intro afters hs
          exact hs.prepend h.done
      · intro after h
        exact h.append (unset_of_fresh_arguments hes)

/-- The checker can go over what it has left. -/
theorem ArgumentsChecked.again {es afters : List Expr} {tys : List Ty}
    (h : ArgumentsChecked Γ es afters tys) : ArgumentsChecked Γ afters afters tys := by
  induction h with
  | nil => exact .nil
  | cons h _ ih =>
      exact .cons ⟨h.hasType_after, h.hasType_after, h.annotated, rfl⟩ ih

/-! ### Statements -/

theorem steps_of_checkCondition (hΓ : Γ.Valid) {condition : Expr} (hfresh : condition.Fresh)
    (cause : String → Cause) (position : Position) :
    (checkCondition Γ condition cause position).SettlesOr
      (fun after _ => ∀ step ∈ conditionSteps after, step.Done Γ)
      fun after => Stopped Γ (conditionSteps after) := by
  apply Outcome.SettlesOr.andThen
  apply (Expr.steps_of_check hΓ condition hfresh).mono
  · intro after ty h
    split
    · next hbool =>
        obtain rfl := Ty.isBool_iff.mp hbool
        exact forall_mem_concat h.done h.hasType
    · next hbool =>
        refine Stopped.prepend (.last ?_ trivial) h.done
        intro hcondition
        exact hbool (Ty.isBool_iff.mpr (h.hasType.unique hcondition))
  · intro after h
    exact h.concat trivial

namespace Stmt

mutual

theorem steps_of_check (hΓ : Γ.Valid) :
    (s : Stmt) → s.Fresh → (s.check Γ).SettlesOr (fun after _ => ∀ step ∈ after.steps, step.Done Γ)
      fun after => Stopped Γ after.steps
  | .empty position, _ => fun _ h => absurd h List.not_mem_nil
  | .compound body position, .compound hbody => by
      apply Outcome.SettlesOr.map
      exact steps_of_checkAll hΓ body hbody
  | .assign target value position, .assign htarget hvalue => by
      apply Outcome.SettlesOr.andThen
      apply (Variable.steps_of_check hΓ target htarget).mono
      · intro target' targetTy ht
        apply Outcome.SettlesOr.andThen
        apply (Expr.steps_of_check hΓ value hvalue).mono
        · intro value' valueTy hv
          apply Outcome.SettlesOr.of_settles (settles_assignable position)
          · rintro _ - ⟨rfl, rfl⟩
            exact List.forall_mem_append.mpr
              ⟨ht.done, forall_mem_concat hv.done ⟨ht.hasType, hv.hasType⟩⟩
          · intro d hd
            refine Stopped.prepend (Stopped.prepend (.last ?_ trivial) hv.done) ht.done
            rintro ⟨ht', hv'⟩
            obtain rfl := ht.hasType.unique ht'
            obtain rfl := hv.hasType.unique hv'
            cases hd
        · intro value' hv
          exact Stopped.prepend (hv.concat trivial) ht.done
      · intro target' ht
        exact ht.append (forall_mem_concat (value.unset_of_fresh hvalue) trivial)
  | .call procedure arguments position, .call harguments => by
      have hname := Context.settles_procedureNamed hΓ procedure position
      rw [Stmt.check]
      split
      · next halt hhalt =>
          rw [hhalt] at hname
          apply Outcome.SettlesOr.error hname
          refine .here ?_ trivial (forall_mem_concat (unset_of_fresh_arguments harguments) trivial)
          rintro ⟨signature, hmeans⟩
          exact Context.not_means_procedure hΓ hhalt signature hmeans
      · next signature hsignature =>
          have hmeans := hname.of_ok hsignature
          have hcallee : (Step.callee procedure).Done Γ := ⟨signature, hmeans⟩
          apply Outcome.SettlesOr.andThen
          apply ((steps_of_visitAll hΓ arguments harguments).and_settles
            (settles_visitAll_check hΓ arguments harguments)).mono
          · rintro afters tys ⟨hdone, hchecked⟩
            apply Outcome.SettlesOr.of_settles
              (settles_callable hchecked signature procedure position)
            · rintro _ - ⟨-, htakes⟩
              have harguments' : (Step.arguments procedure afters).Done Γ :=
                ⟨signature, hmeans, htakes⟩
              exact List.forall_mem_cons.mpr ⟨hcallee, forall_mem_concat hdone harguments'⟩
            · intro d hd
              refine Stopped.cons (Stopped.prepend (.last ?_ trivial) hdone) hcallee
              rintro ⟨signature', hmeans', htakes⟩
              cases Context.Means.unique hmeans hmeans'
              -- The rules are broken by the arguments as they are left, with their types.
              rw [callable_of_takes hchecked.again htakes] at hd
              cases hd
          · intro afters h
            exact Stopped.cons (h.concat trivial) hcallee
  | .conditional condition thenBranch elseBranch position, .conditional hc ht he => by
      apply Outcome.SettlesOr.andThen
      apply (steps_of_checkCondition hΓ hc _ position).mono
      · intro condition' _ hcondition
        apply Outcome.SettlesOr.andThen
        apply (steps_of_check hΓ thenBranch ht).mono
        · intro thenBranch' _ hthen
          apply Outcome.SettlesOr.map
          apply (steps_of_check hΓ elseBranch he).mono
          · intro elseBranch' _ helse
            exact List.forall_mem_append.mpr
              ⟨hcondition, List.forall_mem_append.mpr ⟨hthen, helse⟩⟩
          · intro elseBranch' helse
            exact Stopped.prepend (helse.prepend hthen) hcondition
        · intro thenBranch' hthen
          exact Stopped.prepend (hthen.append (elseBranch.unset_of_fresh he)) hcondition
      · intro condition' hcondition
        exact hcondition.append (List.forall_mem_append.mpr
          ⟨thenBranch.unset_of_fresh ht, elseBranch.unset_of_fresh he⟩)
  | .loop condition body position, .loop hc hb => by
      apply Outcome.SettlesOr.andThen
      apply (steps_of_checkCondition hΓ hc _ position).mono
      · intro condition' _ hcondition
        apply Outcome.SettlesOr.map
        apply (steps_of_check hΓ body hb).mono
        · intro body' _ hbody
          exact List.forall_mem_append.mpr ⟨hcondition, hbody⟩
        · intro body' hbody
          exact hbody.prepend hcondition
      · intro condition' hcondition
        exact hcondition.append (body.unset_of_fresh hb)

theorem steps_of_checkAll (hΓ : Γ.Valid) :
    (ss : List Stmt) → (∀ s ∈ ss, s.Fresh) →
      (checkAll Γ ss).SettlesOr (fun afters _ => ∀ step ∈ stepsOfAll afters, step.Done Γ)
        fun afters => Stopped Γ (stepsOfAll afters)
  | [], _ => fun _ h => absurd h List.not_mem_nil
  | s :: ss, hfresh => by
      obtain ⟨hs, hss⟩ := List.forall_mem_cons.mp hfresh
      apply Outcome.SettlesOr.andThen
      apply (steps_of_check hΓ s hs).mono
      · intro after _ h
        apply Outcome.SettlesOr.map
        apply (steps_of_checkAll hΓ ss hss).mono
        · intro afters _ hrest
          exact List.forall_mem_append.mpr ⟨h, hrest⟩
        · intro afters hrest
          exact hrest.prepend h
      · intro after h
        exact h.append (unset_of_fresh_all ss hss)

end

end Stmt

end Spl
