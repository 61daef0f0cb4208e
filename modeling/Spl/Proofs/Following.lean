import Spl.Proofs.Syntax.Translation
import Spl.Proofs.Yielding

/-!
Two runs of a pass, the second on a translation of what the first one works on.
The second run follows the first if it finishes where the first does, with what
corresponds to the first one's answer. It follows strictly if besides it fails
where the first does, with the same complaint in translation. Each way of
putting passes together has a rule that says how a whole follows another one if
its parts do.
-/

namespace Spl

variable {m : Translation} {strict : Prop} {α α' β β' ν ν' μ μ' σ σ' : Type}

/-- The second of two is what `view` makes of the first. -/
abbrev Image (view : α → β) (x : α) (y : β) : Prop :=
  y = view x

/-- Answers that correspond by `A`, or a complaint and what becomes of it. If the
comparison is not strict, nothing is said of what follows a complaint. -/
inductive ResultFollows {ε : Type} (become : ε → ε) (strict : Prop) (A : α → α' → Prop) :
    Except ε α → Except ε α' → Prop
  | ok {a : α} {a' : α'} (ha : A a a') : ResultFollows become strict A (.ok a) (.ok a')
  | error {e : ε} {r' : Except ε α'} (h : strict → r' = .error (become e)) :
      ResultFollows become strict A (.error e) r'

namespace ResultFollows

variable {ε δ : Type} {become : ε → ε} {become' : δ → δ} {A : α → α' → Prop} {B : β → β' → Prop}
  {r : Except ε α} {r' : Except ε α'}

theorem map (h : ResultFollows become strict A r r') {value : α → β} {value' : α' → β'}
    (hvalue : ∀ a a', A a a' → B (value a) (value' a')) :
    ResultFollows become strict B (r.map value) (r'.map value') := by
  cases h with
  | ok ha => exact .ok (hvalue _ _ ha)
  | error h => exact .error fun hstrict => by rw [h hstrict]; rfl

theorem bind (h : ResultFollows become strict A r r') {next : α → Except ε β}
    {next' : α' → Except ε β'}
    (hnext : ∀ a a', A a a' → ResultFollows become strict B (next a) (next' a')) :
    ResultFollows become strict B (r >>= next) (r' >>= next') := by
  cases h with
  | ok ha => exact hnext _ _ ha
  | error h => exact .error fun hstrict => by rw [h hstrict]; rfl

theorem mapError (h : ResultFollows become strict A r r') {wrap : ε → δ}
    (hwrap : ∀ e, wrap (become e) = become' (wrap e)) :
    ResultFollows become' strict A (r.mapError wrap) (r'.mapError wrap) := by
  cases h with
  | ok ha => exact .ok ha
  | error h =>
      exact .error fun hstrict => by
        rw [h hstrict]
        exact congrArg Except.error (hwrap _)

end ResultFollows

namespace Outcome

/-- What is there after a pass and after the one that follows it corresponds by
`R`, and the answers by `A`. -/
inductive Follows (m : Translation) (strict : Prop) (R : ν → ν' → Prop) (A : α → α' → Prop) :
    Outcome ν α → Outcome ν' α' → Prop
  | ok {x : ν} {x' : ν'} {a : α} {a' : α'} (hx : R x x') (ha : A a a') :
      Follows m strict R A ⟨x, .ok a⟩ ⟨x', .ok a'⟩
  | error {x : ν} {halt : Halt} {o' : Outcome ν' α'}
      (h : strict → ∃ x', R x x' ∧ o' = ⟨x', .error (halt.translate m)⟩) :
      Follows m strict R A ⟨x, .error halt⟩ o'

namespace Follows

variable {R : ν → ν' → Prop} {S : μ → μ' → Prop} {A : α → α' → Prop} {B : β → β' → Prop}
  {o : Outcome ν α} {o' : Outcome ν' α'}

theorem of_result {x : ν} {x' : ν'} {r : Except Halt α} {r' : Except Halt α'} (hx : R x x')
    (h : ResultFollows (Halt.translate m) strict A r r') :
    Follows m strict R A ⟨x, r⟩ ⟨x', r'⟩ := by
  cases h with
  | ok ha => exact .ok hx ha
  | error h => exact .error fun hstrict => ⟨x', hx, by rw [h hstrict]⟩

theorem mono {R' : ν → ν' → Prop} {A' : α → α' → Prop} (h : o.Follows m strict R A o')
    (hR : ∀ x x', R x x' → R' x x') (hA : ∀ a a', A a a' → A' a a') :
    o.Follows m strict R' A' o' := by
  cases h with
  | ok hx ha => exact .ok (hR _ _ hx) (hA _ _ ha)
  | error h =>
      refine .error fun hstrict => ?_
      obtain ⟨x', hx, rfl⟩ := h hstrict
      exact ⟨x', hR _ _ hx, rfl⟩

theorem andThen (h : o.Follows m strict R A o') {rebuild : ν → μ} {rebuild' : ν' → μ'}
    {next : ν → α → Outcome μ β} {next' : ν' → α' → Outcome μ' β'}
    (hrebuild : ∀ x x', R x x' → S (rebuild x) (rebuild' x'))
    (hnext : ∀ x x' a a', R x x' → A a a' → (next x a).Follows m strict S B (next' x' a')) :
    (o.andThen rebuild next).Follows m strict S B (o'.andThen rebuild' next') := by
  cases h with
  | ok hx ha => exact hnext _ _ _ _ hx ha
  | error h =>
      refine .error fun hstrict => ?_
      obtain ⟨x', hx, rfl⟩ := h hstrict
      exact ⟨rebuild' x', hrebuild _ _ hx, rfl⟩

theorem map (h : o.Follows m strict R A o') {rebuild : ν → μ} {rebuild' : ν' → μ'}
    {value : α → β} {value' : α' → β'}
    (hrebuild : ∀ x x', R x x' → S (rebuild x) (rebuild' x'))
    (hvalue : ∀ a a', A a a' → B (value a) (value' a')) :
    (o.map rebuild value).Follows m strict S B (o'.map rebuild' value') := by
  cases h with
  | ok hx ha => exact .ok (hrebuild _ _ hx) (hvalue _ _ ha)
  | error h =>
      refine .error fun hstrict => ?_
      obtain ⟨x', hx, rfl⟩ := h hstrict
      exact ⟨rebuild' x', hrebuild _ _ hx, rfl⟩

/-- A slot that is written takes the type in translation. -/
theorem write (slot : Slot) {ty ty' : Ty} (hty : ty' = ty.translate m) {node : Slot → ν}
    {node' : Slot → ν'} (hnode : ∀ slot, R (node slot) (node' (slot.translate m))) :
    (slot.write ty node).Follows m strict R (Image (Ty.translate m))
      ((slot.translate m).write ty' node') := by
  subst hty
  cases slot with
  | none => exact .ok (hnode (some ty)) rfl
  | some was => exact .error fun _ => ⟨_, hnode (some was), rfl⟩

theorem visitAll {view : ν → ν'} {visit : ν → Outcome ν α} {visit' : ν' → Outcome ν' α'}
    {answer : α → α'}
    (h : ∀ x, (visit x).Follows m strict (Image view) (Image answer) (visit' (view x)))
    (xs : List ν) :
    (Outcome.visitAll visit xs).Follows m strict (Image (List.map view)) (Image (List.map answer))
      (Outcome.visitAll visit' (xs.map view)) := by
  induction xs with
  | nil => exact .ok rfl rfl
  | cons x xs ih =>
      refine (h x).andThen (fun _ _ hx => by rw [hx]; rfl) fun y _ a _ hy ha => ?_
      subst hy ha
      exact ih.map (fun _ _ hxs => by rw [hxs]; rfl) fun _ _ has => by rw [has]; rfl

/-- A node and its translation, beside states that correspond by `D`. -/
def Beside (view : ν → ν') (D : σ → σ' → Prop) (x : ν × σ) (x' : ν' × σ') : Prop :=
  x'.1 = view x.1 ∧ D x.2 x'.2

theorem threadAll {view : ν → ν'} {D : σ → σ' → Prop} {visit : ν → σ → Outcome (ν × σ) α}
    {visit' : ν' → σ' → Outcome (ν' × σ') α'} {answer : α → α'} {xs : List ν}
    (h : ∀ x ∈ xs, ∀ s s', D s s' →
      (visit x s).Follows m strict (Beside view D) (Image answer) (visit' (view x) s'))
    {s : σ} {s' : σ'} (hs : D s s') :
    (Outcome.threadAll visit xs s).Follows m strict (Beside (List.map view) D)
      (Image (List.map answer)) (Outcome.threadAll visit' (xs.map view) s') := by
  induction xs generalizing s s' with
  | nil => exact .ok ⟨rfl, hs⟩ rfl
  | cons x xs ih =>
      obtain ⟨hx, hxs⟩ := List.forall_mem_cons.mp h
      refine (hx s s' hs).andThen ?_ ?_
      · rintro ⟨y, t⟩ ⟨_, t'⟩ ⟨rfl, ht⟩
        exact ⟨rfl, ht⟩
      · rintro ⟨y, t⟩ ⟨_, t'⟩ a _ ⟨rfl, ht⟩ rfl
        refine (ih hxs ht).map ?_ fun _ _ has => by rw [has]; rfl
        rintro ⟨ys, u⟩ ⟨_, u'⟩ ⟨rfl, hu⟩
        exact ⟨rfl, hu⟩

/-- A run that follows one that finishes does so too. -/
theorem exists_yields (h : o.Follows m strict R A o') {x : ν} {a : α} (ho : o.Yields x a) :
    ∃ x' a', o'.Yields x' a' ∧ R x x' ∧ A a a' := by
  cases h with
  | ok hx ha =>
      obtain ⟨rfl, rfl⟩ := yields_ok_iff.mp ho
      exact ⟨_, _, rfl, hx, ha⟩
  | error h => exact absurd ho not_yields_error

/-- A run that follows strictly is determined by the one that it follows. -/
theorem eq_of_strict {view : ν → ν'} {answer : α → α'}
    (h : o.Follows m True (Image view) (Image answer) o') :
    o' = ⟨view o.after, (o.result.map answer).mapError (Halt.translate m)⟩ := by
  cases h with
  | ok hx ha => rw [hx, ha]; rfl
  | error h =>
      obtain ⟨x', hx, rfl⟩ := h trivial
      rw [hx]
      rfl

/-- Where labels alone change, a run that follows strictly is the one that it
follows with other labels. -/
theorem eq_relabel {ρ : Relabelling} {view : ν → ν'} {o' : Outcome ν' α}
    (h : o.Follows ρ.translation True (Image view) (Image id) o') : o' = o.relabel ρ view := by
  have hhalt := funext (Halt.translate_eq_relabel ρ.keepsTypes_translation)
  have heq := h.eq_of_strict
  obtain ⟨x, result⟩ := o
  rw [heq, hhalt]
  cases result <;> rfl

end Follows

end Outcome

end Spl
