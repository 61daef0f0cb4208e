import Spl.Slot

/-!
Passes that finish. A pass yields what it leaves and answers if it does not
end early. Every way of putting passes together yields exactly when its parts
do, so that a finished pass can be taken apart into finished steps. A pass that
ends early does so in one of its parts, with the parts before it finished.
-/

namespace Spl

variable {α β ε ν μ σ : Type}

/-- Work of which something is known has ended with an answer of which it holds. -/
theorem exists_ok_of_map {x : Except ε α} {view : α → β} {b : β}
    (h : x.toOption.map view = some b) : ∃ a, x = .ok a ∧ view a = b := by
  cases x with
  | error e => cases h
  | ok a => exact ⟨a, rfl, Option.some.inj h⟩

theorem exists_ok_of_isSome {x : Except ε α} (h : x.toOption.isSome = true) :
    ∃ a, x = .ok a := by
  cases x with
  | error e => cases h
  | ok a => exact ⟨a, rfl⟩

namespace Outcome

/-- The pass finishes with the answer `a` and leaves `x`. -/
def Yields (o : Outcome ν α) (x : ν) (a : α) : Prop :=
  o = ⟨x, .ok a⟩

theorem yields_of_result {o : Outcome ν α} {a : α} (h : o.result = .ok a) :
    o.Yields o.after a := by
  obtain ⟨x, result⟩ := o
  have hresult : result = .ok a := h
  rw [Yields, hresult]

theorem Yields.result_eq {o : Outcome ν α} {x : ν} {a : α} (h : o.Yields x a) :
    o.result = .ok a := by
  rw [h]

theorem Yields.after_eq {o : Outcome ν α} {x : ν} {a : α} (h : o.Yields x a) : o.after = x := by
  rw [h]

@[simp] theorem yields_ok_iff {x y : ν} {a b : α} :
    (⟨x, .ok a⟩ : Outcome ν α).Yields y b ↔ x = y ∧ a = b := by
  simp [Yields]

@[simp] theorem not_yields_error {x y : ν} {halt : Halt} {b : α} :
    ¬(⟨x, .error halt⟩ : Outcome ν α).Yields y b := by
  simp [Yields]

@[simp] theorem yields_andThen_iff {o : Outcome ν α} {rebuild : ν → μ}
    {next : ν → α → Outcome μ β} {y : μ} {b : β} :
    (o.andThen rebuild next).Yields y b ↔ ∃ x a, o.Yields x a ∧ (next x a).Yields y b := by
  obtain ⟨x, result⟩ := o
  cases result with
  | error halt => simp
  | ok a =>
      rw [andThen_ok]
      constructor
      · exact fun h => ⟨x, a, rfl, h⟩
      · rintro ⟨_, _, ⟨⟩, h⟩
        exact h

@[simp] theorem yields_map_iff {o : Outcome ν α} {rebuild : ν → μ} {value : α → β} {y : μ} {b : β} :
    (o.map rebuild value).Yields y b ↔ ∃ x a, o.Yields x a ∧ rebuild x = y ∧ value a = b := by
  obtain ⟨x, result⟩ := o
  cases result with
  | error halt => simp [map, Except.map]
  | ok a =>
      constructor
      · intro h
        obtain ⟨hy, hb⟩ : rebuild x = y ∧ value a = b := yields_ok_iff.mp h
        exact ⟨x, a, rfl, hy, hb⟩
      · rintro ⟨_, _, ⟨⟩, rfl, rfl⟩
        rfl

/-- A slot is written only if it is empty. -/
@[simp] theorem yields_write_iff {slot : Slot} {ty : Ty} {node : Slot → ν} {y : ν} {b : Ty} :
    (slot.write ty node).Yields y b ↔ slot = none ∧ node (some ty) = y ∧ ty = b := by
  cases slot with
  | none => simp
  | some was => simp

/-- A walk that hands a state on, as the finished visits of its elements: from
the elements `xs` and the state `s` it leaves `ys` and `t`, with the answers
`as`. -/
inductive Threaded (visit : ν → σ → Outcome (ν × σ) α) :
    List ν → σ → List ν → σ → List α → Prop
  | nil {s : σ} : Threaded visit [] s [] s []
  | cons {x y : ν} {s s' t : σ} {a : α} {xs ys : List ν} {as : List α}
      (h : (visit x s).Yields (y, s') a) (hs : Threaded visit xs s' ys t as) :
      Threaded visit (x :: xs) s (y :: ys) t (a :: as)

theorem yields_threadAll_iff {visit : ν → σ → Outcome (ν × σ) α} {xs ys : List ν} {s t : σ}
    {as : List α} :
    (threadAll visit xs s).Yields (ys, t) as ↔ Threaded visit xs s ys t as := by
  induction xs generalizing s ys as with
  | nil =>
      rw [threadAll, yields_ok_iff]
      constructor
      · rintro ⟨h, rfl⟩
        cases h
        exact .nil
      · rintro ⟨⟩
        exact ⟨rfl, rfl⟩
  | cons x xs ih =>
      rw [threadAll, yields_andThen_iff]
      constructor
      · rintro ⟨⟨y, s'⟩, a, hfirst, hrest⟩
        obtain ⟨⟨ys', t'⟩, as', hrest, hys, rfl⟩ := yields_map_iff.mp hrest
        cases hys
        exact .cons hfirst (ih.mp hrest)
      · intro h
        cases h with
        | cons hfirst hrest =>
            exact ⟨_, _, hfirst, yields_map_iff.mpr ⟨_, _, ih.mpr hrest, rfl, rfl⟩⟩

/-! ### Passes that end early -/

theorem result_andThen_of_error {o : Outcome ν α} {halt : Halt} (h : o.result = .error halt)
    (rebuild : ν → μ) (next : ν → α → Outcome μ β) :
    (o.andThen rebuild next).result = .error halt := by
  rw [andThen, h]

theorem eq_error_of_map {x : Except Halt α} {f : α → β} {halt : Halt}
    (h : x.map f = .error halt) : x = .error halt := by
  cases x with
  | ok a => cases h
  | error _ => exact congrArg Except.error (Except.error.inj h)

/-- The diagnostic of a pass is what it ends with. -/
theorem result_of_diagnosed {o : Outcome ν α} {complaint : Diagnostic}
    (h : o.diagnosed.result.toOption = some (some complaint)) :
    o.result = .error (.diagnostic complaint) := by
  obtain ⟨x, result⟩ := o
  cases result with
  | ok a => cases h
  | error halt =>
      cases halt with
      | diagnostic d =>
          obtain rfl : d = complaint := Option.some.inj (Option.some.inj h)
          rfl
      | fault fault => cases h

/-- A walk ends at the first element whose visit fails. -/
theorem result_threadAll_of_error {visit : ν → σ → Outcome (ν × σ) α} {before before' : List ν}
    {s s' : σ} {as : List α} (hbefore : Threaded visit before s before' s' as) {x : ν}
    {halt : Halt} (hx : (visit x s').result = .error halt) (after : List ν) :
    (threadAll visit (before ++ x :: after) s).result = .error halt := by
  induction hbefore with
  | nil => exact result_andThen_of_error hx _ _
  | cons h _ ih =>
      rw [List.cons_append, threadAll, h, andThen_ok]
      dsimp only
      rw [result_map, ih hx]
      rfl

/-- A walk finishes, or there is a first element whose visit fails. -/
theorem threaded_or_error (visit : ν → σ → Outcome (ν × σ) α) (xs : List ν) (s : σ) :
    (∃ ys t as, Threaded visit xs s ys t as) ∨
      ∃ before x after before' s' as halt, xs = before ++ x :: after ∧
        Threaded visit before s before' s' as ∧ (visit x s').result = .error halt := by
  induction xs generalizing s with
  | nil => exact .inl ⟨[], s, [], .nil⟩
  | cons x xs ih =>
      cases hx : (visit x s).result with
      | error halt => exact .inr ⟨[], x, xs, [], s, [], halt, rfl, .nil, hx⟩
      | ok a =>
          have hfirst := yields_of_result hx
          generalize (visit x s).after = after at hfirst
          obtain ⟨y, s'⟩ := after
          obtain ⟨ys, t, as, hrest⟩ | ⟨before, z, rest, before', t, as, halt, rfl, hbefore, hz⟩ :=
            ih s'
          · exact .inl ⟨_, _, _, .cons hfirst hrest⟩
          · exact .inr ⟨_, z, rest, _, t, _, halt, rfl, .cons hfirst hbefore, hz⟩

end Outcome

end Spl
