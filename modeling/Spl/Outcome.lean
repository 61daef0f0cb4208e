import Spl.Halt

/-!
Passes that write into what they walk over. A pass can end early, and what it has written by then
stays. So its outcome holds both what is there afterwards, whichever way it ended, and its result.
-/

namespace Spl

structure Outcome (ν α : Type) where
  after : ν
  result : Except Halt α

namespace Outcome

variable {ν μ σ α β : Type}

/-- The outcome for a whole that `rebuild` makes from the part that the pass went over. -/
def map (o : Outcome ν α) (rebuild : ν → μ) (value : α → β) : Outcome μ β :=
  ⟨rebuild o.after, o.result.map value⟩

@[simp] theorem after_map (o : Outcome ν α) (rebuild : ν → μ) (value : α → β) :
    (o.map rebuild value).after = rebuild o.after := rfl

@[simp] theorem result_map (o : Outcome ν α) (rebuild : ν → μ) (value : α → β) :
    (o.map rebuild value).result = o.result.map value := rfl

/-- Goes on with `next` if the first pass finished. Else `rebuild` puts what the first pass left
into its place, and the rest is not touched. -/
def andThen (o : Outcome ν α) (rebuild : ν → μ) (next : ν → α → Outcome μ β) : Outcome μ β :=
  match o.result with
  | .ok a => next o.after a
  | .error halt => ⟨rebuild o.after, .error halt⟩

@[simp] theorem andThen_ok (x : ν) (a : α) (rebuild : ν → μ) (next : ν → α → Outcome μ β) :
    (⟨x, .ok a⟩ : Outcome ν α).andThen rebuild next = next x a := rfl

@[simp] theorem andThen_error (x : ν) (halt : Halt) (rebuild : ν → μ)
    (next : ν → α → Outcome μ β) :
    (⟨x, .error halt⟩ : Outcome ν α).andThen rebuild next = ⟨rebuild x, .error halt⟩ := rfl

/-- Two passes finish if both do, the second on what the first has left. -/
theorem result_andThen_eq_ok_iff (o : Outcome ν α) (rebuild : ν → μ) (next : ν → α → Outcome μ β)
    (b : β) :
    (o.andThen rebuild next).result = .ok b ↔
      ∃ a, o.result = .ok a ∧ (next o.after a).result = .ok b := by
  obtain ⟨x, result⟩ := o
  cases result with
  | error halt => simp
  | ok a => simp

/-- A pass whose diagnostic, if it ends with one, is its result. -/
def diagnosed (o : Outcome ν α) : Outcome ν (Option Diagnostic) :=
  match o.result with
  | .ok _ => ⟨o.after, .ok none⟩
  | .error (.diagnostic d) => ⟨o.after, .ok (some d)⟩
  | .error (.fault fault) => ⟨o.after, .error (.fault fault)⟩

@[simp] theorem after_diagnosed (o : Outcome ν α) : o.diagnosed.after = o.after := by
  unfold diagnosed
  split <;> rfl

/-- Walks over a list from the left and stops at the first element whose pass fails. -/
def visitAll (visit : ν → Outcome ν α) : List ν → Outcome (List ν) (List α)
  | [] => ⟨[], .ok []⟩
  | x :: xs =>
    (visit x).andThen (· :: xs) fun x a => (visitAll visit xs).map (x :: ·) (a :: ·)

/-- Walks over a list like `visitAll`, handing a state from element to element. -/
def threadAll (visit : ν → σ → Outcome (ν × σ) α) : List ν → σ → Outcome (List ν × σ) (List α)
  | [], s => ⟨([], s), .ok []⟩
  | x :: xs, s =>
    (visit x s).andThen (fun (x, s) => (x :: xs, s)) fun (x, s) a =>
    (threadAll visit xs s).map (fun (xs, s) => (x :: xs, s)) (a :: ·)

end Outcome

end Spl
