import Mathlib.Order.WellFounded
import Spl.Proofs.Annotation.Erasure
import Spl.Proofs.Phases
import Spl.Proofs.Program.Entering
import Spl.Proofs.Typing.Bodies

/-!
What is wrong with a call. A call can have several flaws at once, which come in
an order: those of the name, those of single arguments, those of their number,
and those of arguments that do not agree with their parameters. Checking a call
complains about the first of its flaws, and it accepts a call without any.
-/

namespace Spl

open Outcome

variable {Γ : Context}

/-! ### Arguments and parameters -/

/-- What there is to complain about if an argument does not agree with its
parameter. That a reference has to be a variable comes first. -/
inductive Formal.Refuses (Γ : Context) (procedure : String) (index : Nat) (formal : Formal)
    (e : Expr) : Cause → Prop
  | notVariable (hreference : formal.byReference = true) (h : e.isVariable = false) :
      Refuses Γ procedure index formal e (.argumentMustBeAVariable procedure index)
  | mismatch {ty : Ty} (hvariable : formal.byReference = true → e.isVariable = true)
      (hty : e.HasType Γ ty) (h : formal.ty.same ty = false) :
      Refuses Γ procedure index formal e
        (.argumentTypeMismatch procedure index formal.ty.text ty.text)

namespace Formal

variable {formal : Formal} {e : Expr} {procedure : String} {index : Nat}

theorem Refuses.unique {c₁ c₂ : Cause} (h₁ : formal.Refuses Γ procedure index e c₁)
    (h₂ : formal.Refuses Γ procedure index e c₂) : c₁ = c₂ := by
  cases h₁ with
  | notVariable hreference h =>
      cases h₂ with
      | notVariable _ _ => rfl
      | mismatch hvariable _ _ => exact absurd (hvariable hreference) (by simp [h])
  | mismatch hvariable hty _ =>
      cases h₂ with
      | notVariable hreference h => exact absurd (hvariable hreference) (by simp [h])
      | mismatch _ hty' _ => rw [hty.unique hty']

/-- A parameter takes an argument that has a type, or refuses it. -/
theorem takes_or_refuses {ty : Ty} (hty : e.HasType Γ ty) (procedure : String) (index : Nat) :
    formal.Takes Γ e ∨ ∃ cause, formal.Refuses Γ procedure index e cause := by
  by_cases hvariable : formal.byReference = true → e.isVariable = true
  · cases hsame : formal.ty.same ty with
    | true => exact .inl ⟨ty, hty, hsame, hvariable⟩
    | false => exact .inr ⟨_, .mismatch hvariable hty hsame⟩
  · rw [Classical.not_imp, Bool.not_eq_true] at hvariable
    exact .inr ⟨_, .notVariable hvariable.1 hvariable.2⟩

end Formal

/-! ### Flaws -/

/-- The ways in which a call can be wrong. Arguments are told by their indices,
counted from zero. -/
inductive CallFlaw
  | undefined
  | notProcedure
  | argument (index : Nat)
  | tooMany
  | tooFew
  | disagreement (index : Nat)

namespace CallFlaw

/-- The stage in which a flaw is looked for, and where in it. -/
def rank : CallFlaw → Nat × Nat
  | undefined => (0, 0)
  | notProcedure => (1, 0)
  | argument index => (2, index)
  | tooMany => (3, 0)
  | tooFew => (4, 0)
  | disagreement index => (5, index)

/-- One flaw comes before another one in the order of looking for them. -/
def Before (a b : CallFlaw) : Prop :=
  Prod.Lex (· < ·) (· < ·) a.rank b.rank

theorem Before.of_stage {a b : CallFlaw} (h : a.rank.1 < b.rank.1) : a.Before b :=
  Prod.lex_def.mpr (.inl h)

theorem Before.of_index {a b : CallFlaw} (hstage : a.rank.1 = b.rank.1)
    (h : a.rank.2 < b.rank.2) : a.Before b :=
  Prod.lex_def.mpr (.inr ⟨hstage, h⟩)

theorem wellFounded_before : WellFounded Before :=
  InvImage.wf rank (WellFounded.prod_lex wellFounded_lt wellFounded_lt)

/-- A flaw that a call has, with the complaint about it. -/
inductive Found (Γ : Context) (procedure : String) (arguments : List Expr) (position : Position) :
    CallFlaw → Diagnostic → Prop
  | undefined (h : ∀ entry, ¬Γ.Means procedure entry) :
      Found Γ procedure arguments position .undefined ⟨.undefinedProcedure procedure, position⟩
  | notProcedure {entry : Entry} (h : Γ.Means procedure entry)
      (hentry : ∀ signature, entry ≠ .procedure signature) :
      Found Γ procedure arguments position .notProcedure ⟨.callOfNonProcedure procedure, position⟩
  | argument {i : Nat} {e : Expr} {d : Diagnostic} (he : arguments[i]? = some e)
      (h : (e.check Γ).result = .error (.diagnostic d)) :
      Found Γ procedure arguments position (.argument i) d
  | tooMany {signature : Signature} (hp : Γ.Means procedure (.procedure signature))
      (h : signature.formals.length < arguments.length) :
      Found Γ procedure arguments position .tooMany ⟨.tooManyArguments procedure, position⟩
  | tooFew {signature : Signature} (hp : Γ.Means procedure (.procedure signature))
      (h : arguments.length < signature.formals.length) :
      Found Γ procedure arguments position .tooFew ⟨.tooFewArguments procedure, position⟩
  | disagreement {signature : Signature} {i : Nat} {formal : Formal} {e : Expr} {cause : Cause}
      (hp : Γ.Means procedure (.procedure signature)) (hf : signature.formals[i]? = some formal)
      (he : arguments[i]? = some e) (h : formal.Refuses Γ procedure i e cause) :
      Found Γ procedure arguments position (.disagreement i) ⟨cause, position⟩

variable {procedure : String} {arguments : List Expr} {position : Position}

/-- There is one complaint about each flaw. -/
theorem Found.unique {flaw : CallFlaw} {d₁ d₂ : Diagnostic}
    (h₁ : Found Γ procedure arguments position flaw d₁)
    (h₂ : Found Γ procedure arguments position flaw d₂) : d₁ = d₂ := by
  cases h₁ with
  | undefined _ => cases h₂; rfl
  | notProcedure _ _ => cases h₂; rfl
  | tooMany _ _ => cases h₂; rfl
  | tooFew _ _ => cases h₂; rfl
  | argument he h =>
      cases h₂ with
      | argument he' h' =>
          obtain rfl := Option.some.inj (he.symm.trans he')
          exact Halt.diagnostic.inj (Except.error.inj (h.symm.trans h'))
  | disagreement hp hf he h =>
      cases h₂ with
      | disagreement hp' hf' he' h' =>
          obtain ⟨⟩ := hp.unique hp'
          obtain rfl := Option.some.inj (hf.symm.trans hf')
          obtain rfl := Option.some.inj (he.symm.trans he')
          rw [h.unique h']

/-- A flaw that a call has, and none comes before it. -/
def First (Γ : Context) (procedure : String) (arguments : List Expr) (position : Position)
    (flaw : CallFlaw) (d : Diagnostic) : Prop :=
  Found Γ procedure arguments position flaw d ∧
    ∀ other d', Found Γ procedure arguments position other d' → ¬other.Before flaw

/-- A call with flaws has a first one. -/
theorem Found.exists_first {flaw : CallFlaw} {d : Diagnostic}
    (h : Found Γ procedure arguments position flaw d) :
    ∃ first d', First Γ procedure arguments position first d' := by
  obtain ⟨first, ⟨d', hfirst⟩, hleast⟩ := wellFounded_before.has_min
    {flaw | ∃ d, Found Γ procedure arguments position flaw d} ⟨flaw, d, h⟩
  exact ⟨first, d', hfirst, fun other d'' hother => hleast other ⟨d'', hother⟩⟩

end CallFlaw

/-! ### Arguments -/

/-- A walk ends where the first of its visits does. -/
theorem Outcome.result_visitAll_of_error {α ν : Type} {visit : ν → Outcome ν α} {xs : List ν}
    {i : Nat} {x : ν} {halt : Halt} (hi : xs[i]? = some x) (hx : (visit x).result = .error halt)
    (hbefore : ∀ j < i, ∀ y, xs[j]? = some y → ∃ a, (visit y).result = .ok a) :
    (visitAll visit xs).result = .error halt := by
  induction xs generalizing i with
  | nil => cases hi
  | cons y ys ih =>
      cases i with
      | zero =>
          obtain rfl := Option.some.inj hi
          rw [visitAll, andThen, hx]
      | succ i =>
          obtain ⟨a, ha⟩ := hbefore 0 (Nat.succ_pos i) y rfl
          have hrest := ih hi fun j hj z hz => hbefore (j + 1) (Nat.succ_lt_succ hj) z hz
          rw [visitAll, andThen, ha]
          dsimp only
          rw [result_map, hrest]
          rfl

/-- Comparing ends at the first argument that is refused. -/
theorem argumentsAgree_of_refuses {es afters : List Expr} {tys : List Ty}
    (h : ArgumentsChecked Γ es afters tys) {formals : List Formal} {procedure : String}
    {position : Position} {first i : Nat} {formal : Formal} {e : Expr} {cause : Cause}
    (hf : formals[i]? = some formal) (he : es[i]? = some e)
    (hrefuses : formal.Refuses Γ procedure (first + i) e cause)
    (hbefore : ∀ j < i, ∀ formal e, formals[j]? = some formal → es[j]? = some e →
      formal.Takes Γ e) :
    argumentsAgree procedure position first formals afters tys =
      .error (cause.halt position) := by
  induction h generalizing formals first i with
  | nil => cases he
  | @cons e₀ after ty es afters tys hchecked _ ih =>
      obtain ⟨formal₀, formals, rfl⟩ : ∃ formal₀ rest, formals = formal₀ :: rest :=
        List.exists_cons_of_ne_nil fun hnil => by simp [hnil] at hf
      rw [argumentsAgree]
      cases i with
      | zero =>
          obtain rfl := Option.some.inj hf
          obtain rfl := Option.some.inj he
          cases hrefuses with
          | notVariable hreference h =>
              rw [if_pos (by simp [hchecked.isVariable, hreference, h])]
              rfl
          | mismatch hvariable hty h =>
              obtain rfl := hty.unique hchecked.hasType
              rw [← hchecked.isVariable] at hvariable
              rw [if_neg (by simpa using hvariable), if_pos (by simp [h])]
              rfl
      | succ i =>
          obtain ⟨ty', hty', hsame, hvariable⟩ := hbefore 0 (Nat.succ_pos i) formal₀ e₀ rfl rfl
          obtain rfl := hty'.unique hchecked.hasType
          rw [← hchecked.isVariable] at hvariable
          rw [if_neg (by simpa using hvariable), if_neg (by simp [hsame])]
          refine ih hf he ?_ fun j hj formal e hf he =>
            hbefore (j + 1) (Nat.succ_lt_succ hj) formal e hf he
          rwa [Nat.add_right_comm]

/-! ### Calls -/

section

variable {procedure : String} {arguments : List Expr} {position : Position}

namespace CallFlaw

/-- A name is that of a procedure, or it is the name that the call is wrong in. -/
theorem procedure_or_found (hΓ : Γ.Valid) (procedure : String) (arguments : List Expr)
    (position : Position) :
    (∃ signature, Γ.Means procedure (.procedure signature)) ∨
      ∃ flaw d, Found Γ procedure arguments position flaw d ∧ flaw.rank.1 ≤ 1 := by
  obtain ⟨found, -, hfound⟩ := Context.lookup_of_valid hΓ procedure
  match found, hfound with
  | some (.procedure signature), hfound => exact .inl ⟨signature, (hfound _).mp rfl⟩
  | some (.type _), hfound =>
      exact .inr ⟨_, _, .notProcedure ((hfound _).mp rfl) nofun, Nat.le_refl 1⟩
  | some (.var _ _), hfound =>
      exact .inr ⟨_, _, .notProcedure ((hfound _).mp rfl) nofun, Nat.le_refl 1⟩
  | none, hfound =>
      have hnone : ∀ entry, ¬Γ.Means procedure entry := fun entry h =>
        nomatch (hfound entry).mpr h
      exact .inr ⟨_, _, .undefined hnone, Nat.zero_le 1⟩

/-- Behind the flaws of the name it is that of a procedure. -/
theorem First.exists_procedure (hΓ : Γ.Valid) {flaw : CallFlaw} {d : Diagnostic}
    (h : First Γ procedure arguments position flaw d) (hrank : 1 < flaw.rank.1) :
    ∃ signature, Γ.Means procedure (.procedure signature) := by
  obtain hp | ⟨other, d', hfound, hle⟩ := procedure_or_found hΓ procedure arguments position
  · exact hp
  · exact (h.2 other d' hfound).elim (.of_stage (Nat.lt_of_le_of_lt hle hrank))

/-- An argument is checked with an answer, or it is a flaw of the call. -/
theorem checked_or_found (hΓ : Γ.Valid) (hfresh : ∀ e ∈ arguments, e.Fresh) {i : Nat} {e : Expr}
    (he : arguments[i]? = some e) :
    (∃ ty, (e.check Γ).result = .ok ty ∧ e.HasType Γ ty) ∨
      ∃ d, Found Γ procedure arguments position (.argument i) d := by
  have hchecked := Expr.settles_check hΓ e (hfresh e (List.mem_of_getElem? he))
  cases hcheck : (e.check Γ).result with
  | ok ty => exact .inl ⟨ty, rfl, (hchecked.of_ok hcheck).hasType⟩
  | error halt =>
      rw [Outcome.Settles, hcheck] at hchecked
      match halt, hchecked with
      | .diagnostic d, _ => exact .inr ⟨d, .argument he hcheck⟩

/-- Behind the flaws of arguments they all have types. -/
theorem First.exists_types (hΓ : Γ.Valid) (hfresh : ∀ e ∈ arguments, e.Fresh) {flaw : CallFlaw}
    {d : Diagnostic} (h : First Γ procedure arguments position flaw d) (hrank : 2 < flaw.rank.1) :
    ∃ tys, (visitAll (Expr.check Γ) arguments).result = .ok tys := by
  refine visitAll_eq_ok fun e he => ?_
  obtain ⟨i, hi⟩ := List.mem_iff_getElem?.mp he
  obtain ⟨ty, hcheck, -⟩ | ⟨d', hfound⟩ := checked_or_found hΓ hfresh hi
  · exact ⟨ty, hcheck⟩
  · exact (h.2 _ d' hfound).elim (.of_stage hrank)

/-- A call without flaws keeps the rules. -/
theorem wellTyped_of_none (hΓ : Γ.Valid) (hfresh : ∀ e ∈ arguments, e.Fresh)
    (h : ∀ flaw d, ¬Found Γ procedure arguments position flaw d) :
    Stmt.WellTyped Γ (.call procedure arguments position) := by
  obtain ⟨signature, hp⟩ | ⟨flaw, d, hfound, -⟩ :=
    procedure_or_found hΓ procedure arguments position
  case inr => exact absurd hfound (h flaw d)
  have hlength : signature.formals.length = arguments.length :=
    Nat.le_antisymm (Nat.not_lt.mp fun hfew => h _ _ (.tooFew hp hfew))
      (Nat.not_lt.mp fun hmany => h _ _ (.tooMany hp hmany))
  refine .call hp (List.forall₂_iff_get.mpr ⟨hlength, fun i hf he => ?_⟩)
  have hf := List.getElem?_eq_getElem hf
  have he := List.getElem?_eq_getElem he
  obtain ⟨ty, -, hty⟩ | ⟨d, hfound⟩ := checked_or_found hΓ hfresh he
  · obtain htakes | ⟨cause, hrefuses⟩ := Formal.takes_or_refuses hty procedure i
    · exact htakes
    · exact absurd (.disagreement hp hf he hrefuses) (h _ _)
  · exact absurd hfound (h _ d)

end CallFlaw

/-- A call of a procedure is checked argument by argument. -/
theorem Stmt.check_call_of_means (hΓ : Γ.Valid) {signature : Signature}
    (hp : Γ.Means procedure (.procedure signature)) :
    (Stmt.call procedure arguments position).check Γ =
      (visitAll (Expr.check Γ) arguments).andThen (.call procedure · position) fun after tys =>
        ⟨.call procedure after position, callable signature procedure after tys position⟩ := by
  rw [Stmt.check, Context.procedureNamed_of_means hΓ hp]

/-- A call whose arguments have types is compared with the signature. -/
theorem Stmt.result_check_call (hΓ : Γ.Valid) {signature : Signature}
    (hp : Γ.Means procedure (.procedure signature)) {tys : List Ty}
    (htys : (visitAll (Expr.check Γ) arguments).result = .ok tys) :
    ((Stmt.call procedure arguments position).check Γ).result =
      callable signature procedure (visitAll (Expr.check Γ) arguments).after tys position := by
  rw [Stmt.check_call_of_means hΓ hp, andThen, htys]

/-- Checking complains about the first flaw. -/
theorem CallFlaw.First.result_check (hΓ : Γ.Valid) (hfresh : ∀ e ∈ arguments, e.Fresh)
    {flaw : CallFlaw} {d : Diagnostic} (h : First Γ procedure arguments position flaw d) :
    ((Stmt.call procedure arguments position).check Γ).result = .error (.diagnostic d) := by
  obtain ⟨hfound, hfirst⟩ := h
  cases hfound with
  | undefined hnone =>
      rw [Stmt.check, Context.procedureNamed, Context.lookup_of_not_means hΓ hnone]
      rfl
  | @notProcedure entry hentry hne =>
      rw [Stmt.check, Context.procedureNamed, Context.lookup_of_means hΓ hentry]
      cases entry with
      | type _ => rfl
      | var _ _ => rfl
      | procedure signature => exact absurd rfl (hne signature)
  | @argument i e d he hcheck =>
      obtain ⟨signature, hp⟩ :=
        First.exists_procedure hΓ ⟨.argument he hcheck, hfirst⟩ (Nat.lt_succ_self 1)
      have hbefore : ∀ j < i, ∀ e, arguments[j]? = some e →
          ∃ ty, (e.check Γ).result = .ok ty := by
        intro j hj e' he'
        obtain ⟨ty, hty, -⟩ | ⟨d', hfound⟩ := checked_or_found hΓ hfresh he'
        · exact ⟨ty, hty⟩
        · exact (hfirst _ d' hfound).elim (.of_index rfl hj)
      rw [Stmt.check_call_of_means hΓ hp, andThen, result_visitAll_of_error he hcheck hbefore]
  | tooMany hp hmany =>
      obtain ⟨tys, htys⟩ := First.exists_types hΓ hfresh ⟨.tooMany hp hmany, hfirst⟩ (by decide)
      have hlength := ((settles_visitAll_check hΓ arguments hfresh).of_ok htys).length_eq
      rw [Stmt.result_check_call hΓ hp htys, callable, if_pos (by omega)]
      rfl
  | tooFew hp hfew =>
      obtain ⟨tys, htys⟩ := First.exists_types hΓ hfresh ⟨.tooFew hp hfew, hfirst⟩ (by decide)
      have hlength := ((settles_visitAll_check hΓ arguments hfresh).of_ok htys).length_eq
      rw [Stmt.result_check_call hΓ hp htys, callable, if_neg (by omega), if_pos (by omega)]
      rfl
  | @disagreement signature i formal e cause hp hf he hrefuses =>
      obtain ⟨tys, htys⟩ :=
        First.exists_types hΓ hfresh ⟨.disagreement hp hf he hrefuses, hfirst⟩
          (show 2 < 5 by decide)
      have hchecked := (settles_visitAll_check hΓ arguments hfresh).of_ok htys
      have hlength := hchecked.length_eq
      have hmany : ¬signature.formals.length < arguments.length := fun hmany =>
        hfirst _ _ (.tooMany hp hmany) (.of_stage (show 3 < 5 by decide))
      have hfew : ¬arguments.length < signature.formals.length := fun hfew =>
        hfirst _ _ (.tooFew hp hfew) (.of_stage (show 4 < 5 by decide))
      have hbefore : ∀ j < i, ∀ formal e, signature.formals[j]? = some formal →
          arguments[j]? = some e → formal.Takes Γ e := by
        intro j hj formal' e' hf' he'
        obtain ⟨ty, -, hty⟩ | ⟨d', hfound⟩ := checked_or_found hΓ hfresh he'
        · obtain htakes | ⟨cause', hrefuses'⟩ := Formal.takes_or_refuses hty procedure j
          · exact htakes
          · exact (hfirst _ _ (.disagreement hp hf' he' hrefuses')).elim (.of_index rfl hj)
        · exact (hfirst _ d' hfound).elim (.of_stage (show 2 < 5 by decide))
      rw [← Nat.zero_add i] at hrefuses
      rw [Stmt.result_check_call hΓ hp htys, callable, if_neg (by omega), if_neg (by omega),
        argumentsAgree_of_refuses hchecked hf he hrefuses hbefore]
      rfl

/-- Checking a call complains about its first flaw, and accepts it with all its
arguments annotated if it has none. -/
theorem CallFlaw.reported_of_valid (hΓ : Γ.Valid) (hfresh : ∀ e ∈ arguments, e.Fresh) :
    let checked := (Stmt.call procedure arguments position).check Γ
    (∃ flaw d, First Γ procedure arguments position flaw d ∧
        checked.result = .error (.diagnostic d)) ∨
      (∀ flaw d, ¬Found Γ procedure arguments position flaw d) ∧ checked.result = .ok () := by
  by_cases h : ∃ flaw d, Found Γ procedure arguments position flaw d
  · obtain ⟨flaw, d, hfound⟩ := h
    obtain ⟨first, d', hfirst⟩ := hfound.exists_first
    exact .inl ⟨first, d', hfirst, hfirst.result_check hΓ hfresh⟩
  · have hnone : ∀ flaw d, ¬Found Γ procedure arguments position flaw d := fun flaw d hfound =>
      h ⟨flaw, d, hfound⟩
    exact .inr ⟨hnone,
      Stmt.check_of_wellTyped hΓ _ (.call hfresh) (wellTyped_of_none hΓ hfresh hnone)⟩

end

/-- Checking a call in a scope of a table that was built. It is accepted exactly
if it has no flaw, and then it is the same call with types written to all nodes
of its arguments. Else the diagnostic is the complaint about the first flaw. -/
theorem check_call_reports_first_flaw {options : Options} {p : Program} {fresh : Nat}
    {output : Text.Sink} {table : SymbolTable}
    (hbuild : (p.buildTable options fresh output).result = .ok table) {scope : ScopeId}
    (hscope : scope.index < table.size) (procedure : String) {arguments : List Expr}
    (hfresh : ∀ e ∈ arguments, e.Fresh) (position : Position) :
    let Γ : Context := ⟨table, scope⟩
    let call : Stmt := .call procedure arguments position
    let checked := call.check Γ
    (checked.result = .ok () ↔
        ∀ flaw d, ¬CallFlaw.Found Γ procedure arguments position flaw d) ∧
      (∀ d, checked.result = .error (.diagnostic d) ↔
        ∃ flaw, CallFlaw.First Γ procedure arguments position flaw d) ∧
      (∀ fault, checked.result ≠ .error (.fault fault)) ∧
      (checked.result = .ok () →
        checked.after.erase = call ∧ ∀ spot ∈ checked.after.spots, spot.Annotated Γ) := by
  obtain ⟨-, -, c, -, -, hholds, -, -⟩ := Program.entered_of_buildTable hbuild
  have hΓ : Context.Valid ⟨table, scope⟩ := ⟨hholds.grounded, hscope⟩
  have hreported := @CallFlaw.reported_of_valid _ procedure arguments position hΓ hfresh
  have hcall : Stmt.Fresh (.call procedure arguments position) := .call hfresh
  refine ⟨?_, fun d => ?_, fun fault hfault => ?_, fun hok => ⟨?_, ?_⟩⟩
  · obtain ⟨flaw, d, hfirst, herror⟩ | ⟨hnone, hok⟩ := hreported
    · refine ⟨fun hok => ?_, fun hnone => (hnone _ _ hfirst.1).elim⟩
      cases herror.symm.trans hok
    · exact ⟨fun _ => hnone, fun _ => hok⟩
  · constructor
    · intro herror
      obtain ⟨flaw, d', hfirst, herror'⟩ | ⟨-, hok⟩ := hreported
      · cases herror.symm.trans herror'
        exact ⟨flaw, hfirst⟩
      · cases herror.symm.trans hok
    · rintro ⟨flaw, hfirst⟩
      exact hfirst.result_check hΓ hfresh
  · obtain ⟨flaw, d, -, herror⟩ | ⟨-, hok⟩ := hreported
    · cases herror.symm.trans hfault
    · cases hok.symm.trans hfault
  · exact (Stmt.leaves_check _ _).trans (Stmt.erase_of_fresh _ hcall)
  · exact ((Stmt.settles_check hΓ _ hcall).of_ok hok).annotated

/-- A local variable shadows the procedure of its name, and a number cannot be
passed by reference. -/
theorem call_flaws_of_main : ∃ tokens rest p table,
    tokenize "proc p(i: int, ref r: int) \x7b\x7d proc main() \x7b var printi: int; \x7d"
      (some "a.spl") = .ok tokens ∧
    parse "a.spl" tokens = .ok p rest ∧
    (p.buildTable .default 0 .unlimited).result = .ok table ∧
    (∃ flaw, CallFlaw.First ⟨table, ⟨12⟩⟩ "printi" [.int 1 ⟨61, "a.spl"⟩ none] ⟨54, "a.spl"⟩ flaw
      ⟨.callOfNonProcedure "printi", ⟨54, "a.spl"⟩⟩) ∧
    ∃ flaw, CallFlaw.First ⟨table, ⟨12⟩⟩ "p"
      [.int 1 ⟨56, "a.spl"⟩ none, .int 2 ⟨59, "a.spl"⟩ none] ⟨54, "a.spl"⟩ flaw
      ⟨.argumentMustBeAVariable "p" 1, ⟨54, "a.spl"⟩⟩ := by
  have hfound : (parseSource
      "proc p(i: int, ref r: int) \x7b\x7d proc main() \x7b var printi: int; \x7d"
      "a.spl").toOption.map
      (fun p => (p.buildTable .default 0 .unlimited).result.toOption.map fun table =>
        (table.size,
          ((Stmt.call "printi" [.int 1 ⟨61, "a.spl"⟩ none] ⟨54, "a.spl"⟩).check
            ⟨table, ⟨12⟩⟩).result,
          ((Stmt.call "p" [.int 1 ⟨56, "a.spl"⟩ none, .int 2 ⟨59, "a.spl"⟩ none]
            ⟨54, "a.spl"⟩).check ⟨table, ⟨12⟩⟩).result)) =
      some (some (13, .error (Cause.halt (.callOfNonProcedure "printi") ⟨54, "a.spl"⟩),
        .error (Cause.halt (.argumentMustBeAVariable "p" 1) ⟨54, "a.spl"⟩))) := by
    decide +kernel
  obtain ⟨tokens, rest, p, htokens, hparse, hview⟩ := exists_parse_of_map hfound
  obtain ⟨table, hbuild, hview⟩ := exists_ok_of_map hview
  obtain ⟨hsize, hresults⟩ := Prod.mk.inj hview
  obtain ⟨hprinti, hp⟩ := Prod.mk.inj hresults
  have hscope : (⟨12⟩ : ScopeId).index < table.size := by
    rw [hsize]
    decide
  refine ⟨tokens, rest, p, table, htokens, hparse, hbuild, ?_, ?_⟩
  · exact ((check_call_reports_first_flaw hbuild hscope _ (by simp [Expr.Fresh]) _).2.1 _).mp
      hprinti
  · exact ((check_call_reports_first_flaw hbuild hscope _ (by simp [Expr.Fresh]) _).2.1 _).mp hp

end Spl
