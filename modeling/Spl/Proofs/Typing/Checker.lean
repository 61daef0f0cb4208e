import Spl.Program.Typing
import Spl.Proofs.Fresh
import Spl.Proofs.Settling
import Spl.Proofs.Typing.Spots

/-!
The checker follows the rules of typing. On fresh nodes of a valid context it
never faults; what it accepts keeps the rules, and it accepts all that keeps
the rules. Then it leaves each node annotated with the type that the rules
give it.
-/

namespace Spl

/-! ### Names -/

namespace Context

variable {Γ : Context}

theorem settles_variableNamed (hΓ : Γ.Valid) (name : String) (position : Position) :
    Settles (Γ.variableNamed name position) fun ty =>
      ∃ byReference, Γ.Means name (.var ty byReference) := by
  obtain ⟨found, hlookup, hfound⟩ := lookup_of_valid hΓ name
  unfold variableNamed
  rw [hlookup]
  match found, hfound with
  | some (.var ty byReference), h => exact ⟨byReference, (h _).mp rfl⟩
  | some (.type _), _ => trivial
  | some (.procedure _), _ => trivial
  | none, _ => trivial

theorem variableNamed_of_means (hΓ : Γ.Valid) {name : String} {ty : Ty} {byReference : Bool}
    (h : Γ.Means name (.var ty byReference)) (position : Position) :
    Γ.variableNamed name position = .ok ty := by
  obtain ⟨found, hlookup, hfound⟩ := lookup_of_valid hΓ name
  obtain rfl := (hfound _).mpr h
  rw [variableNamed, hlookup]
  rfl

theorem settles_procedureNamed (hΓ : Γ.Valid) (name : String) (position : Position) :
    Settles (Γ.procedureNamed name position) fun signature =>
      Γ.Means name (.procedure signature) := by
  obtain ⟨found, hlookup, hfound⟩ := lookup_of_valid hΓ name
  unfold procedureNamed
  rw [hlookup]
  match found, hfound with
  | some (.procedure signature), h => exact (h _).mp rfl
  | some (.type _), _ => trivial
  | some (.var _ _), _ => trivial
  | none, _ => trivial

theorem procedureNamed_of_means (hΓ : Γ.Valid) {name : String} {signature : Signature}
    (h : Γ.Means name (.procedure signature)) (position : Position) :
    Γ.procedureNamed name position = .ok signature := by
  rw [procedureNamed, lookup_of_means hΓ h]
  rfl

end Context

/-! ### Expressions and variables -/

theorem Ty.isInt_iff {ty : Ty} : ty.isInt = true ↔ ty = .int := by
  cases ty <;> simp [isInt]

theorem Ty.isBool_iff {ty : Ty} : ty.isBool = true ↔ ty = .bool := by
  cases ty <;> simp [isBool]

theorem Ty.same_int_iff {ty : Ty} : Ty.same .int ty = true ↔ ty = .int := by
  cases ty <;> simp [same]

/-- An operator makes what the rules say. -/
theorem BinaryOp.resultTy_eq (op : BinaryOp) :
    op.resultTy = if op ∈ [.add, .sub, .mul, .div] then .int else .bool := by
  cases op <;> rfl

theorem Ty.element?_eq_some_iff {ty element : Ty} :
    ty.element? = some element ↔ ∃ identity size, ty = .array identity size element := by
  cases ty <;> simp [element?]

/-- What the checker leaves of an expression: the same expression to the
rules, with all its nodes annotated. -/
structure Expr.Checked (Γ : Context) (e after : Expr) (ty : Ty) : Prop where
  hasType : e.HasType Γ ty
  hasType_after : after.HasType Γ ty
  annotated : ∀ place, ∀ spot ∈ after.spots place, spot.Annotated Γ
  isVariable : after.isVariable = e.isVariable

structure Variable.Checked (Γ : Context) (v after : Variable) (ty : Ty) : Prop where
  hasType : v.HasType Γ ty
  hasType_after : after.HasType Γ ty
  annotated : ∀ place, ∀ spot ∈ after.spots place, spot.Annotated Γ

mutual

theorem Expr.settles_check {Γ : Context} (hΓ : Γ.Valid) :
    (e : Expr) → e.Fresh → (e.check Γ).Settles fun after ty => e.Checked Γ after ty
  | .int value position slot, hfresh => by
      obtain rfl := hfresh
      refine ⟨.int, .int, ?_, rfl⟩
      intro place spot hspot
      obtain rfl := List.mem_singleton.mp hspot
      exact ⟨.int, .int, rfl⟩
  | .var v position slot, hfresh => by
      obtain ⟨hv, rfl⟩ := hfresh
      apply Outcome.Settles.andThen
      apply Outcome.Settles.mono (Variable.settles_check hΓ v hv)
      intro after ty h
      apply Outcome.settles_write
      refine ⟨.var h.hasType, .var h.hasType_after, ?_, rfl⟩
      intro place
      rw [Expr.spots]
      exact List.forall_mem_cons.mpr ⟨⟨ty, .var h.hasType_after, rfl⟩, h.annotated _⟩
  | .unary .minus operand position slot, hfresh => by
      obtain ⟨hoperand, rfl⟩ := hfresh
      apply Outcome.Settles.andThen
      apply Outcome.Settles.mono (Expr.settles_check hΓ operand hoperand)
      intro after ty h
      split
      · next hint =>
          obtain rfl := Ty.isInt_iff.mp hint
          apply Outcome.settles_write
          refine ⟨.minus h.hasType, .minus h.hasType_after, ?_, rfl⟩
          intro place
          rw [Expr.spots]
          exact List.forall_mem_cons.mpr ⟨⟨.int, .minus h.hasType_after, rfl⟩, h.annotated _⟩
      · trivial
  | .binary op left right position slot, hfresh => by
      obtain ⟨hleft, hright, rfl⟩ := hfresh
      apply Outcome.Settles.andThen
      apply Outcome.Settles.mono (Expr.settles_check hΓ left hleft)
      intro left' leftTy hl
      apply Outcome.Settles.andThen
      apply Outcome.Settles.mono (Expr.settles_check hΓ right hright)
      intro right' rightTy hr
      split
      · next hint =>
          rw [Bool.and_eq_true, Ty.isInt_iff] at hint
          obtain ⟨hsame, rfl⟩ := hint
          obtain rfl := Ty.same_int_iff.mp hsame
          have hafter : Expr.HasType Γ (.binary op left' right' position (some op.resultTy))
              op.resultTy :=
            Expr.hasType_binary_iff.mpr ⟨hl.hasType_after, hr.hasType_after, op.resultTy_eq⟩
          apply Outcome.settles_write
          refine ⟨Expr.hasType_binary_iff.mpr ⟨hl.hasType, hr.hasType, op.resultTy_eq⟩, hafter,
            ?_, rfl⟩
          intro place
          rw [Expr.spots]
          refine List.forall_mem_cons.mpr ⟨⟨_, hafter, rfl⟩, ?_⟩
          exact List.forall_mem_append.mpr ⟨hl.annotated _, hr.annotated _⟩
      · trivial

theorem Variable.settles_check {Γ : Context} (hΓ : Γ.Valid) :
    (v : Variable) → v.Fresh → (v.check Γ).Settles fun after ty => v.Checked Γ after ty
  | .named name position slot, hfresh => by
      obtain rfl := hfresh
      have hname := Context.settles_variableNamed hΓ name position
      rw [Variable.check]
      split
      · next ty hty =>
          obtain ⟨byReference, hmeans⟩ := hname.of_ok hty
          refine ⟨.named hmeans, .named hmeans, ?_⟩
          intro place spot hspot
          obtain rfl := List.mem_singleton.mp hspot
          exact ⟨ty, .named hmeans, rfl⟩
      · next halt hhalt =>
          rw [hhalt] at hname
          exact Outcome.Settles.error hname _
  | .element array index position slot, hfresh => by
      obtain ⟨harray, hindex, rfl⟩ := hfresh
      apply Outcome.Settles.andThen
      apply Outcome.Settles.mono (Variable.settles_check hΓ array harray)
      intro array' arrayTy ha
      apply Outcome.Settles.andThen
      apply Outcome.Settles.mono (Expr.settles_check hΓ index hindex)
      intro index' indexTy hi
      split
      · trivial
      · next elementTy helement =>
          obtain ⟨identity, size, rfl⟩ := Ty.element?_eq_some_iff.mp helement
          split
          · next hint =>
              obtain rfl := Ty.isInt_iff.mp hint
              have hafter : Variable.HasType Γ
                  (.element array' index' position (some elementTy)) elementTy :=
                .element ha.hasType_after hi.hasType_after
              apply Outcome.settles_write
              refine ⟨.element ha.hasType hi.hasType, hafter, ?_⟩
              intro place
              rw [Variable.spots]
              refine List.forall_mem_cons.mpr ⟨⟨_, hafter, rfl⟩, ?_⟩
              exact List.forall_mem_append.mpr ⟨ha.annotated _, hi.annotated _⟩
          · trivial

end

mutual

theorem Expr.check_of_hasType {Γ : Context} (hΓ : Γ.Valid) {ty : Ty} :
    (e : Expr) → e.Fresh → e.HasType Γ ty → (e.check Γ).result = .ok ty
  | .int _ _ _, hfresh, .int => by
      obtain rfl := hfresh
      rfl
  | .var v _ _, hfresh, .var h => by
      obtain ⟨hv, rfl⟩ := hfresh
      rw [Expr.check, Outcome.result_andThen_eq_ok_iff]
      exact ⟨ty, Variable.check_of_hasType hΓ v hv h, rfl⟩
  | .unary _ operand _ _, hfresh, .minus h => by
      obtain ⟨hoperand, rfl⟩ := hfresh
      rw [Expr.check, Outcome.result_andThen_eq_ok_iff]
      exact ⟨.int, Expr.check_of_hasType hΓ operand hoperand h, rfl⟩
  | .binary op left right _ _, hfresh, h => by
      obtain ⟨hleft, hright, rfl⟩ := hfresh
      obtain ⟨hl, hr, rfl⟩ := Expr.hasType_binary_iff.mp h
      rw [Expr.check, Outcome.result_andThen_eq_ok_iff]
      refine ⟨.int, Expr.check_of_hasType hΓ left hleft hl, ?_⟩
      rw [Outcome.result_andThen_eq_ok_iff]
      refine ⟨.int, Expr.check_of_hasType hΓ right hright hr, ?_⟩
      cases op <;> rfl

theorem Variable.check_of_hasType {Γ : Context} (hΓ : Γ.Valid) {ty : Ty} :
    (v : Variable) → v.Fresh → v.HasType Γ ty → (v.check Γ).result = .ok ty
  | .named name position _, hfresh, .named h => by
      obtain rfl := hfresh
      rw [Variable.check, Context.variableNamed_of_means hΓ h position]
      rfl
  | .element array index _ _, hfresh, .element ha hi => by
      obtain ⟨harray, hindex, rfl⟩ := hfresh
      rw [Variable.check, Outcome.result_andThen_eq_ok_iff]
      refine ⟨_, Variable.check_of_hasType hΓ array harray ha, ?_⟩
      rw [Outcome.result_andThen_eq_ok_iff]
      exact ⟨.int, Expr.check_of_hasType hΓ index hindex hi, rfl⟩

end

end Spl
