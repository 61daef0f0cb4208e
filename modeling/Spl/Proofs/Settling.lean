import Spl.Slot

/-!
Total correctness of passes. Work settles with a postcondition if it ends
with an answer for which the postcondition holds or with a diagnostic; it
never settles with a fault. A pass that writes into what it walks over has a
postcondition on what is there afterwards as well.

Each way of putting passes together has a rule, so that a statement about a
pass is proved part by part in the order in which the pass runs.
-/

namespace Spl

variable {α β ν μ σ : Type}

/-- The work ends with an answer that has the property, or with a diagnostic. -/
def Settles (x : Except Halt α) (Q : α → Prop) : Prop :=
  match x with
  | .ok a => Q a
  | .error (.diagnostic _) => True
  | .error (.fault _) => False

namespace Settles

variable {x : Except Halt α} {Q R : α → Prop}

@[simp] theorem ok_iff {a : α} : Settles (.ok a) Q ↔ Q a := Iff.rfl

@[simp] theorem diagnostic (d : Diagnostic) : Settles (.error (.diagnostic d)) Q := trivial

@[simp] theorem halt (cause : Cause) (position : Position) :
    Settles (.error (cause.halt position)) Q := trivial

theorem mono (h : Settles x Q) (hQ : ∀ a, Q a → R a) : Settles x R := by
  match x, h with
  | .ok a, h => exact hQ a h
  | .error (.diagnostic _), _ => trivial

theorem bind {f : α → Except Halt β} {Q : β → Prop}
    (h : Settles x fun a => Settles (f a) Q) : Settles (x >>= f) Q := by
  match x, h with
  | .ok _, h => exact h
  | .error (.diagnostic _), _ => trivial

theorem map {f : α → β} {Q : β → Prop} (h : Settles x fun a => Q (f a)) :
    Settles (x.map f) Q := by
  match x, h with
  | .ok _, h => exact h
  | .error (.diagnostic _), _ => trivial

/-- A fold keeps what each of its steps keeps. -/
theorem foldlM {f : α → β → Except Halt α} {I : α → Prop} {xs : List β} {a : α} (ha : I a)
    (step : ∀ a x, x ∈ xs → I a → Settles (f a x) I) : Settles (xs.foldlM f a) I := by
  induction xs generalizing a with
  | nil => exact ha
  | cons x xs ih =>
      rw [List.foldlM_cons]
      apply bind
      apply mono (step a x List.mem_cons_self ha)
      intro b hb
      exact ih hb fun a y hy => step a y (List.mem_cons_of_mem x hy)

theorem of_ok {a : α} (h : Settles x Q) (hx : x = .ok a) : Q a := by
  rw [hx] at h
  exact h

end Settles

namespace Outcome

/-- The pass settles, and what it leaves and answers has the property if it finished. -/
def Settles (o : Outcome ν α) (Q : ν → α → Prop) : Prop :=
  Spl.Settles o.result (Q o.after)

namespace Settles

variable {o : Outcome ν α} {Q R : ν → α → Prop}

theorem mono (h : o.Settles Q) (hQ : ∀ x a, Q x a → R x a) : o.Settles R :=
  Spl.Settles.mono h (hQ o.after)

theorem andThen {rebuild : ν → μ} {next : ν → α → Outcome μ β} {Q : μ → β → Prop}
    (h : o.Settles fun x a => (next x a).Settles Q) : (o.andThen rebuild next).Settles Q := by
  obtain ⟨x, result⟩ := o
  match result, h with
  | .ok _, h => exact h
  | .error (.diagnostic _), _ => trivial

theorem map {rebuild : ν → μ} {value : α → β} {Q : μ → β → Prop}
    (h : o.Settles fun x a => Q (rebuild x) (value a)) : (o.map rebuild value).Settles Q :=
  Spl.Settles.map h

theorem of_ok {a : α} (h : o.Settles Q) (ho : o.result = .ok a) : Q o.after a :=
  Spl.Settles.of_ok h ho

/-- What ends a part that settles may end the whole. -/
theorem error {halt : Halt} {P : β → Prop} (h : Spl.Settles (.error halt) P) (x : ν) :
    (⟨x, .error halt⟩ : Outcome ν α).Settles Q := by
  match halt, h with
  | .diagnostic _, _ => trivial

/-- A walk over a list relates the list, what is left of it and the answers
as each single visit relates an element, its rest and its answer. -/
theorem visitAll {visit : ν → Outcome ν α} {R : List ν → List ν → List α → Prop} {xs : List ν}
    (nil : R [] [] [])
    (cons : ∀ x xs', x ∈ xs → (visit x).Settles fun y a =>
      ∀ ys as, R xs' ys as → R (x :: xs') (y :: ys) (a :: as)) :
    (visitAll visit xs).Settles (R xs) := by
  induction xs with
  | nil => exact nil
  | cons x xs ih =>
      rw [Outcome.visitAll]
      apply andThen
      apply mono (cons x xs List.mem_cons_self)
      intro y a hstep
      apply map
      apply mono (ih fun x' xs' hx' => cons x' xs' (List.mem_cons_of_mem x hx'))
      exact hstep

/-- A walk that hands a state on keeps what each visit keeps of the state. -/
theorem threadAll {visit : ν → σ → Outcome (ν × σ) α} {I : σ → Prop}
    {R : List ν → List ν → List α → Prop} {xs : List ν} {s : σ} (hs : I s)
    (nil : R [] [] [])
    (cons : ∀ x xs' s, x ∈ xs → I s → (visit x s).Settles fun y a =>
      I y.2 ∧ ∀ ys as, R xs' ys as → R (x :: xs') (y.1 :: ys) (a :: as)) :
    (threadAll visit xs s).Settles fun y as => I y.2 ∧ R xs y.1 as := by
  induction xs generalizing s with
  | nil => exact ⟨hs, nil⟩
  | cons x xs ih =>
      rw [Outcome.threadAll]
      apply andThen
      apply mono (cons x xs s List.mem_cons_self hs)
      rintro ⟨y, t⟩ a ⟨ht, hstep⟩
      apply map
      apply mono (ih ht fun x' xs' s hx' => cons x' xs' s (List.mem_cons_of_mem x hx'))
      rintro ⟨ys, u⟩ as ⟨hu, hrest⟩
      exact ⟨hu, hstep ys as hrest⟩

end Settles

/-- The pass settles, and what it leaves has a property also if it ended with a
diagnostic. -/
def SettlesOr (o : Outcome ν α) (Q : ν → α → Prop) (S : ν → Prop) : Prop :=
  match o.result with
  | .ok a => Q o.after a
  | .error (.diagnostic _) => S o.after
  | .error (.fault _) => False

namespace SettlesOr

variable {o : Outcome ν α} {Q R : ν → α → Prop} {S T : ν → Prop}

theorem mono (h : o.SettlesOr Q S) (hQ : ∀ x a, Q x a → R x a) (hS : ∀ x, S x → T x) :
    o.SettlesOr R T := by
  obtain ⟨x, result⟩ := o
  match result, h with
  | .ok a, h => exact hQ x a h
  | .error (.diagnostic _), h => exact hS x h

/-- The second pass goes on with what the first one left, and what a stop of
the first one leaves is put into its place. -/
theorem andThen {rebuild : ν → μ} {next : ν → α → Outcome μ β} {Q : μ → β → Prop} {S : μ → Prop}
    (h : o.SettlesOr (fun x a => (next x a).SettlesOr Q S) fun x => S (rebuild x)) :
    (o.andThen rebuild next).SettlesOr Q S := by
  obtain ⟨x, result⟩ := o
  match result, h with
  | .ok _, h => exact h
  | .error (.diagnostic _), h => exact h

theorem map {rebuild : ν → μ} {value : α → β} {Q : μ → β → Prop} {S : μ → Prop}
    (h : o.SettlesOr (fun x a => Q (rebuild x) (value a)) fun x => S (rebuild x)) :
    (o.map rebuild value).SettlesOr Q S := by
  obtain ⟨x, result⟩ := o
  match result, h with
  | .ok _, h => exact h
  | .error (.diagnostic _), h => exact h

theorem write {ty : Ty} {node : Slot → ν} {Q : ν → Ty → Prop} (h : Q (node (some ty)) ty) :
    (Slot.write none ty node).SettlesOr Q S := by
  rw [Slot.write_none]
  exact h

/-- What ends the work on a node that is left as it is. -/
theorem of_settles {x : Except Halt α} {y : ν} {P : α → Prop} (h : Spl.Settles x P)
    (hok : ∀ a, x = .ok a → P a → Q y a) (hstop : ∀ d, x = .error (.diagnostic d) → S y) :
    (⟨y, x⟩ : Outcome ν α).SettlesOr Q S := by
  match x, h with
  | .ok a, h => exact hok a rfl h
  | .error (.diagnostic d), _ => exact hstop d rfl

/-- What ends a part that settles may end the whole. -/
theorem error {halt : Halt} {P : β → Prop} (h : Spl.Settles (.error halt) P) {y : ν} (hstop : S y) :
    (⟨y, .error halt⟩ : Outcome ν α).SettlesOr Q S := by
  match halt, h with
  | .diagnostic _, _ => exact hstop

theorem and_settles (h : o.SettlesOr Q S) (hR : o.Settles R) :
    o.SettlesOr (fun x a => Q x a ∧ R x a) S := by
  obtain ⟨x, result⟩ := o
  match result, h, hR with
  | .ok _, h, hR => exact ⟨h, hR⟩
  | .error (.diagnostic _), h, _ => exact h

theorem of_ok {a : α} (h : o.SettlesOr Q S) (ho : o.result = .ok a) : Q o.after a := by
  rw [SettlesOr, ho] at h
  exact h

/-- A pass whose diagnostic is its result finishes. -/
theorem diagnosed {Q : ν → Prop} (h : o.SettlesOr (fun x _ => Q x) S) :
    o.diagnosed.SettlesOr
      (fun x found => (found = none ∧ Q x) ∨ ((∃ d, found = some d) ∧ S x)) fun _ => False := by
  obtain ⟨x, result⟩ := o
  match result, h with
  | .ok _, h => exact .inl ⟨rfl, h⟩
  | .error (.diagnostic d), h => exact .inr ⟨⟨d, rfl⟩, h⟩

/-- A pass that does not finish ends with a diagnostic. -/
theorem of_error {halt : Halt} (h : o.SettlesOr Q S) (ho : o.result = .error halt) :
    (∃ d, halt = .diagnostic d) ∧ S o.after := by
  rw [SettlesOr, ho] at h
  match halt, h with
  | .diagnostic d, h => exact ⟨⟨d, rfl⟩, h⟩

/-- A pass that cannot stop finishes. -/
theorem exists_ok (h : o.SettlesOr Q fun _ => False) : ∃ a, o.result = .ok a ∧ Q o.after a := by
  obtain ⟨x, result⟩ := o
  match result, h with
  | .ok a, h => exact ⟨a, rfl, h⟩

end SettlesOr

/-- Writing into an empty slot always succeeds. -/
theorem settles_write {ty : Ty} {node : Slot → ν} {Q : ν → Ty → Prop} (h : Q (node (some ty)) ty) :
    (Slot.write none ty node).Settles Q := by
  rw [Slot.write_none]
  exact h

/-- A walk over a list finishes if every visit does. -/
theorem visitAll_eq_ok {visit : ν → Outcome ν α} {xs : List ν}
    (h : ∀ x ∈ xs, ∃ a, (visit x).result = .ok a) : ∃ as, (visitAll visit xs).result = .ok as := by
  induction xs with
  | nil => exact ⟨[], rfl⟩
  | cons x xs ih =>
      obtain ⟨a, ha⟩ := h x List.mem_cons_self
      obtain ⟨as, has⟩ := ih fun y hy => h y (List.mem_cons_of_mem x hy)
      refine ⟨a :: as, ?_⟩
      rw [visitAll, result_andThen_eq_ok_iff]
      exact ⟨a, ha, by rw [result_map, has]; rfl⟩

/-- A walk that finishes has visited every element. -/
theorem after_visitAll_of_ok {visit : ν → Outcome ν α} {xs : List ν} {as : List α}
    (h : (visitAll visit xs).result = .ok as) :
    (visitAll visit xs).after = xs.map fun x => (visit x).after := by
  induction xs generalizing as with
  | nil => rfl
  | cons x xs ih =>
      obtain ⟨a, ha, hrest⟩ := (result_andThen_eq_ok_iff _ _ _ _).mp h
      rw [visitAll, andThen, ha]
      rw [result_map] at hrest
      cases hvisit : (visitAll visit xs).result with
      | error halt =>
          rw [hvisit] at hrest
          cases hrest
      | ok as => exact congrArg ((visit x).after :: ·) (ih hvisit)

end Outcome

end Spl
