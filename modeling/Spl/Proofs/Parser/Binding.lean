import Spl.Expr.Parser
import Spl.Proofs.Parser.Runs
import Spl.Proofs.Parser.Steps
import Spl.Proofs.Syntax.Standard

/-!
Expressions under any tables of operators and operands. Whatever the powers of
the operators are, an expression is read forward and never beyond the end, and
its reader stops in front of a token that does not bind tighter than the power
that was asked for. Each round of its loop takes an operator.
-/

namespace Spl

open Spl.Parser

/-! ### Tables -/

namespace Grammar

/-- The tables that come from the empty ones by entering rules one after
another. The end of a source starts no operand. -/
inductive Registered : Grammar → Prop
  | empty : Registered .empty
  | statement {g : Grammar} (h : Registered g) (kind : TokenKind) (rule : StmtRule) :
      Registered (g.withStatement kind rule)
  | operand {g : Grammar} (h : Registered g) (kind : TokenKind) (rule : OperandRule)
      (hkind : kind ≠ .eof) : Registered (g.withOperand kind rule)
  | operator {g : Grammar} (h : Registered g) (kind : TokenKind) (power : Power) :
      Registered (g.withOperator kind power)
  | type {g : Grammar} (h : Registered g) (kind : TokenKind) (rule : TypeRule) :
      Registered (g.withType kind rule)

namespace Registered

variable {g : Grammar}

/-- The tokens that join operands are those that have a power. -/
theorem joins_iff (hg : g.Registered) (kind : TokenKind) :
    g.joins kind = true ↔ (g.power kind).isSome = true := by
  induction hg with
  | empty => simp [Grammar.empty]
  | statement _ _ _ ih | operand _ _ _ _ ih | type _ _ _ ih => exact ih
  | operator _ k power ih =>
      by_cases hk : kind = k
      · subst hk
        simp [withOperator]
      · simpa [withOperator, assign_of_ne _ hk] using ih

theorem standard : Grammar.standard.Registered :=
  Registered.empty
    |>.operator .less .relational
    |>.operator .lessEquals .relational
    |>.operator .greater .relational
    |>.operator .greaterEquals .relational
    |>.operator .equals .relational
    |>.operator .notEquals .relational
    |>.operator .plus .additive
    |>.operator .dash .additive
    |>.operator .star .multiplicative
    |>.operator .slash .multiplicative
    |>.operand .number .literal (by decide)
    |>.operand .hexNumber .literal (by decide)
    |>.operand .character .literal (by decide)
    |>.operand .identifier .var (by decide)
    |>.operand .dash .negation (by decide)
    |>.operand .openParen .group (by decide)
    |>.statement .semicolon .empty
    |>.statement .openCurly .compound
    |>.statement .ifWord .conditional
    |>.statement .whileWord .loop
    |>.statement .identifier .callOrAssign
    |>.type .identifier .named
    |>.type .arrayWord .array

theorem operand_eof (hg : g.Registered) : g.operand .eof = none := by
  induction hg with
  | empty => rfl
  | statement _ _ _ ih | operator _ _ _ ih | type _ _ _ ih => exact ih
  | operand _ kind rule hkind ih => exact (assign_of_ne _ hkind.symm _).trans ih

end Registered

variable {g : Grammar}

/-- A token that binds tighter than some power is an operator. -/
theorem power_of_lt {kind : TokenKind} {power : Power} (h : power < g.powerOf kind) :
    g.power kind = some (g.powerOf kind) := by
  rw [powerOf] at h ⊢
  cases hpower : g.power kind with
  | none =>
      rw [hpower] at h
      exact absurd h (Nat.not_lt_zero _)
  | some p => rfl

/-- Where the loop of an expression goes on, its rounds take operators. -/
theorem Registered.operatorWith_eq (hg : g.Registered) {inner : Power → Parser Expr} {left : Expr}
    {power : Power} {t : Token} (h : power < g.powerOf t.kind) (ts : List Token) :
    g.operatorWith inner left (t :: ts) =
      g.binaryWith inner left (g.powerOf t.kind) (t :: ts) := by
  have hpower := power_of_lt h
  have hjoins : g.joins t.kind = true := by rw [hg.joins_iff, hpower, Option.isSome_some]
  rw [operatorWith, bind_currentKind, hjoins, hpower]

end Grammar

/-! ### Moving forward -/

/-- Some tokens from within a source have been taken, and the others are left. -/
def Forward (ts rest : List Token) : Prop :=
  ∃ taken, ts = taken ++ rest ∧ taken ≠ [] ∧ Inside taken ∧ Closed rest

namespace Forward

variable {ts us vs : List Token} {t : Token}

theorem closed (h : Forward ts us) : Closed us := by
  obtain ⟨taken, -, -, -, hus⟩ := h
  exact hus

theorem length_lt (h : Forward ts us) : us.length < ts.length := by
  obtain ⟨taken, rfl, hne, -, -⟩ := h
  have hpos := List.length_pos_iff.mpr hne
  rw [List.length_append]
  omega

theorem length_le (h : Forward (t :: ts) us) : us.length ≤ ts.length :=
  Nat.le_of_lt_succ h.length_lt

theorem trans (h : Forward ts us) (h' : Forward us vs) : Forward ts vs := by
  obtain ⟨taken, rfl, hne, htaken, -⟩ := h
  obtain ⟨taken', rfl, -, htaken', hvs⟩ := h'
  exact ⟨taken ++ taken', (List.append_assoc ..).symm, List.append_ne_nil_of_left_ne_nil hne _,
    htaken.append htaken', hvs⟩

theorem behind (h : Closed (t :: ts)) (ht : t.kind ≠ .eof) : Forward (t :: ts) ts := by
  obtain ⟨u, us, rfl, hus⟩ := h.exists_next ht
  exact ⟨[t], rfl, List.cons_ne_nil t [], .cons ht (h.lexical t List.mem_cons_self) .nil, hus⟩

end Forward

namespace Parser

variable {α β : Type} {p : Parser α} {ts us : List Token} {Q : α → List Token → Prop}

theorem Runs.of_eq {q : Parser α} (h : p ts = q us) (hq : Runs q us Q) : Runs p ts Q := by
  rwa [Runs, h]

theorem Runs.pure {a : α} (h : Q a ts) : Runs (Pure.pure a) ts Q := h

theorem Runs.bind {f : α → Parser β} {R : β → List Token → Prop}
    (h : Runs p ts fun a rest => Runs (f a) rest R) : Runs (p >>= f) ts R := by
  rw [Runs] at h
  split at h
  · next a rest hp => exact .of_eq (bind_eq hp) h
  · next d rest hp =>
      rw [Runs, bind_error hp]
      trivial
  · exact h.elim

theorem Runs.fail (d : Diagnostic) : Runs (Parser.fail d) ts Q := trivial

theorem Runs.unexpected (hts : Closed ts) : Runs Parser.unexpected ts Q := by
  cases hts <;> trivial

theorem Runs.misplaced (message : String) (hts : Closed ts) :
    Runs (Parser.misplaced message) ts Q := by
  cases hts <;> trivial

/-- What comes behind a reader that moves forward starts with fewer tokens. -/
theorem Advances.bind {f : α → Parser β} {R : β → List Token → Prop} (h : Advances p ts)
    (hf : ∀ a rest, Forward ts rest → Runs (f a) rest R) : Runs (p >>= f) ts R :=
  .bind (h.mono hf)

theorem Advances.take {t : Token} (hts : Closed (t :: ts)) (ht : t.kind ≠ .eof) :
    Advances Parser.take (t :: ts) := by
  have hforward : Forward (t :: ts) ts := .behind hts ht
  rw [Advances, Runs, take_cons hforward.closed.ne_nil]
  exact hforward

theorem Advances.expect {kind : TokenKind} (hts : Closed ts) (hkind : kind ≠ .eof) :
    Advances (Parser.expect kind) ts := by
  obtain ⟨t, us, rfl⟩ := hts.exists_cons
  rw [Advances, Runs, Parser.expect]
  by_cases ht : t.kind = kind
  · subst ht
    rw [expectOr_of_kind]
    exact Advances.take hts hkind
  · rw [expectOr_of_ne ht]
    trivial

/-- Rounds that move forward end, and behind the last one there is no other.
They are counted by the tokens in front of them. -/
theorem Runs.foldWhile {more : TokenKind → Bool} {step : α → Parser α}
    (hstep : ∀ a t vs, Forward ts (t :: vs) → more t.kind = true → Advances (step a) (t :: vs))
    (hus : Forward ts us) (a : α) :
    Runs (Parser.foldWhile more step a) us fun _ rest =>
      Forward ts rest ∧ ∃ t vs, rest = t :: vs ∧ more t.kind = false := by
  suffices hwithin : ∀ n a us, Forward ts us → us.length < n →
      Runs (foldWithin more step n a) us fun _ rest =>
        Forward ts rest ∧ ∃ t vs, rest = t :: vs ∧ more t.kind = false from
    hwithin _ a us hus (Nat.lt_succ_self _)
  intro n
  induction n with
  | zero => exact fun _ _ _ hlt => absurd hlt (Nat.not_lt_zero _)
  | succ n ih =>
      intro a us hus hlt
      obtain ⟨t, vs, rfl⟩ := hus.closed.exists_cons
      rw [foldWithin]
      refine .of_eq bind_currentKind ?_
      split
      · next hmore =>
          refine (hstep a t vs hus hmore).bind fun b rest hrest => ?_
          have hshorter := hrest.length_lt
          exact ih b rest (hus.trans hrest) (by omega)
      · next hmore => exact .pure ⟨hus, t, vs, rfl, Bool.eq_false_iff.mpr hmore⟩

/-- A loop depends on its rounds only where it goes on. -/
theorem foldWhile_congr {more : TokenKind → Bool} {step step' : α → Parser α}
    (h : ∀ a t us, more t.kind = true → step a (t :: us) = step' a (t :: us)) :
    Parser.foldWhile more step = Parser.foldWhile more step' := by
  have hwithin : ∀ n a ts, foldWithin more step n a ts = foldWithin more step' n a ts := by
    intro n
    induction n with
    | zero => exact fun _ _ => rfl
    | succ n ih =>
        intro a ts
        cases ts with
        | nil => rfl
        | cons t us =>
            rw [foldWithin, foldWithin, bind_currentKind, bind_currentKind]
            split
            · next hmore =>
                have hround := h a t us hmore
                cases hstep : step' a (t :: us) with
                | error halt rest => rw [bind_error (hround.trans hstep), bind_error hstep]
                | ok b rest => rw [bind_eq (hround.trans hstep), bind_eq hstep, ih]
            · rfl
  exact funext fun a => funext fun ts => hwithin _ a ts

/-- The answer of the reader, and the tokens that it leaves. -/
def answer? (p : Parser α) (ts : List Token) : Option (α × List Token) :=
  match p ts with
  | .ok a rest => some (a, rest)
  | .error _ _ => none

theorem answer?_eq_some_iff {a : α} : answer? p ts = some (a, us) ↔ p ts = .ok a us := by
  unfold answer?
  cases p ts with
  | ok a' rest => simp
  | error halt rest => simp

end Parser

/-! ### Expressions

The readers of expressions inside others are known to move forward on fewer
tokens than there are. -/

namespace Grammar

/-- The readers move forward on that many tokens and fewer. -/
def AdvanceWithin (n : Nat) (inner : Power → Parser Expr) : Prop :=
  ∀ power ts, Closed ts → ts.length ≤ n → Advances (inner power) ts

section Parts

variable {inner : Power → Parser Expr} {n : Nat} {t : Token} {ts : List Token}

theorem advances_intLiteral (hts : Closed (t :: ts)) (ht : t.kind ≠ .eof) :
    Advances intLiteral (t :: ts) := by
  have hforward : Forward (t :: ts) ts := .behind hts ht
  refine .of_eq (bind_take hforward.closed.ne_nil) ?_
  have hvalue := Literal.settles_value (hts.lexical t List.mem_cons_self)
  cases hresult : Literal.value t with
  | ok value => exact hforward
  | error halt =>
      cases halt with
      | diagnostic d => exact .fail d
      | fault f =>
          rw [hresult] at hvalue
          exact hvalue.elim

theorem advances_indexWith (hinner : AdvanceWithin n inner) (hts : Closed (t :: ts))
    (ht : t.kind = .openBracket) (hn : ts.length ≤ n) (position : Position) (array : Variable) :
    Advances (indexWith inner position array) (t :: ts) := by
  refine (Advances.take hts (by rw [ht]; decide)).bind fun mark us hus => ?_
  refine (hinner .lowest us hus.closed (hus.length_le.trans hn)).bind fun index vs hvs => ?_
  refine (Advances.expect hvs.closed (by decide)).bind fun mark' ws hws => ?_
  exact .pure (hus.trans (hvs.trans hws))

theorem advances_variableWith (hinner : AdvanceWithin n inner) (hts : Closed ts)
    (hn : ts.length ≤ n + 1) : Advances (variableWith inner) ts := by
  rw [variableWith_eq]
  refine (Advances.expect hts (by decide)).bind fun name us hus => ?_
  refine (Runs.foldWhile (fun array t vs hvs ht => ?_) hus _).mono fun _ _ h => h.1
  have hshorter := hvs.length_lt
  rw [List.length_cons] at hshorter
  exact advances_indexWith hinner hvs.closed (eq_of_beq ht) (by omega) _ array

theorem advances_readWith (hinner : AdvanceWithin n inner) (rule : OperandRule)
    (hts : Closed (t :: ts)) (ht : t.kind ≠ .eof) (hn : ts.length ≤ n) :
    Advances (rule.readWith inner) (t :: ts) := by
  cases rule with
  | literal => exact advances_intLiteral hts ht
  | var =>
      exact (advances_variableWith hinner hts (Nat.succ_le_succ hn)).bind fun v us hus => .pure hus
  | negation =>
      refine (Advances.take hts ht).bind fun mark us hus => ?_
      refine (hinner .unary us hus.closed (hus.length_le.trans hn)).bind fun e vs hvs => ?_
      exact .pure (hus.trans hvs)
  | group =>
      refine (Advances.take hts ht).bind fun mark us hus => ?_
      refine (hinner .lowest us hus.closed (hus.length_le.trans hn)).bind fun e vs hvs => ?_
      refine (Advances.expect hvs.closed (by decide)).bind fun mark' ws hws => ?_
      exact .pure (hus.trans (hvs.trans hws))

/-- The mark of the end is no operator, even where it has a power. -/
theorem advances_binaryWith (hinner : AdvanceWithin n inner) (g : Grammar) (left : Expr)
    (power : Power) (hts : Closed (t :: ts)) (hn : ts.length ≤ n) :
    Advances (g.binaryWith inner left power) (t :: ts) := by
  cases hop : binaryOp? t.kind with
  | none =>
      obtain ⟨rest, htake⟩ := exists_take t ts
      refine .of_eq (bind_eq htake) ?_
      rw [hop]
      exact .fail _
  | some op =>
      have hforward : Forward (t :: ts) ts :=
        .behind hts fun heof => by rw [heof] at hop; cases hop
      refine .of_eq (bind_take hforward.closed.ne_nil) ?_
      rw [hop]
      refine (hinner power ts hforward.closed hn).bind fun right us hus => ?_
      obtain ⟨u, vs, rfl⟩ := hus.closed.exists_cons
      refine .of_eq bind_currentKind ?_
      split
      · exact .misplaced _ hus.closed
      · exact .pure (hforward.trans hus)

end Parts

variable {g : Grammar}

theorem Registered.runs_exprWithin (hg : g.Registered) {n : Nat} :
    ∀ {power : Power} {ts : List Token}, Closed ts → ts.length ≤ n →
      Runs (g.exprWithin n power) ts fun _ rest =>
        Forward ts rest ∧ ∃ t us, rest = t :: us ∧ ¬ power < g.powerOf t.kind := by
  induction n with
  | zero =>
      intro power ts hts hn
      obtain ⟨t, us, rfl⟩ := hts.exists_cons
      exact absurd hn (Nat.not_succ_le_zero _)
  | succ n ih =>
      intro power ts hts hn
      have hinner : AdvanceWithin n (g.exprWithin n) := fun power us hus hn =>
        (ih hus hn).mono fun _ _ h => h.1
      obtain ⟨t, us, rfl⟩ := hts.exists_cons
      rw [List.length_cons] at hn
      rw [exprWithin]
      refine .of_eq bind_currentKind ?_
      split
      · exact .unexpected hts
      · next rule hrule =>
          have ht : t.kind ≠ .eof := fun heof => by
            rw [heof, hg.operand_eof] at hrule
            cases hrule
          refine (advances_readWith hinner rule hts ht (by omega)).bind fun left vs hvs => ?_
          refine (Runs.foldWhile (fun left u ws hws hu => ?_) hvs left).mono ?_
          · have hshorter := hws.length_le
            rw [List.length_cons] at hshorter
            refine .of_eq (hg.operatorWith_eq (of_decide_eq_true hu) ws) ?_
            exact advances_binaryWith hinner g left _ hws.closed (by omega)
          · rintro e _ ⟨hrest, u, ws, rfl, hu⟩
            exact ⟨hrest, u, ws, rfl, of_decide_eq_false hu⟩

/-- Under any tables, a token has a power just if it joins operands, so every
round of the loop of an expression takes an operator. From wherever it starts
among tokens of which the last one marks the end, the reader of expressions
complains, or it moves forward, takes no mark of the end and stops in front of
a token that does not bind tighter than it was asked for. -/
theorem Registered.expr_stops (hg : g.Registered) :
    (∀ kind, g.joins kind = true ↔ (g.power kind).isSome = true) ∧
    (∀ (inner : Power → Parser Expr) (power : Power),
      foldWhile (fun kind => decide (power < g.powerOf kind)) (g.operatorWith inner) =
        foldWhile (fun kind => decide (power < g.powerOf kind)) fun left => do
          g.binaryWith inner left (g.powerOf (← currentKind))) ∧
    ∀ (before after : List Token) (t : Token) (power : Power), Closed (before ++ t :: after) →
      Runs (g.expr power) (t :: after) fun _ rest => ∃ taken u others,
        taken ≠ [] ∧ (∀ v ∈ taken, v.kind ≠ .eof) ∧ rest = u :: others ∧
          before ++ t :: after = before ++ taken ++ rest ∧
          ∀ power', g.power u.kind = some power' → power'.rank ≤ power.rank := by
  refine ⟨hg.joins_iff, fun inner power => ?_, fun before after t power hts => ?_⟩
  · refine foldWhile_congr fun left t us ht => ?_
    rw [bind_currentKind, hg.operatorWith_eq (of_decide_eq_true ht)]
  · have hexpr : g.expr power (t :: after) =
        g.exprWithin ((t :: after).length + 2) power (t :: after) := rfl
    refine .of_eq hexpr ((hg.runs_exprWithin hts.behind (Nat.le_add_right _ _)).mono ?_)
    rintro e _ ⟨⟨taken, htaken, hne, hinside, -⟩, u, others, rfl, hu⟩
    refine ⟨taken, u, others, hne, fun v hv => (hinside v hv).1, rfl, ?_, fun power' hpower => ?_⟩
    · rw [htaken, List.append_assoc]
    · rw [powerOf, hpower] at hu
      exact Nat.not_lt.mp hu

/-- Where sums bind tighter than products, the right operand of a product is a
sum. -/
theorem stops_at_second_product :
    let g := empty
      |>.withOperator .star .additive
      |>.withOperator .plus .multiplicative
      |>.withOperand .number .literal
    let t (kind : TokenKind) (value : String) : Token := ⟨kind, value, ⟨.null, .null⟩⟩
    let before := [t .number "1", t .star "*"]
    let after := [t .plus "+", t .number "3", t .star "*", t .number "4", t .eof "EOF"]
    let sum : Expr := .binary .add (.int 2 .null none) (.int 3 .null none) .null none
    g.Registered ∧ Closed (before ++ t .number "2" :: after) ∧
      g.expr .additive (t .number "2" :: after) = .ok sum (after.drop 2) ∧
      ∃ taken u others, taken ≠ [] ∧ (∀ v ∈ taken, v.kind ≠ .eof) ∧ after.drop 2 = u :: others ∧
        before ++ t .number "2" :: after = before ++ taken ++ after.drop 2 ∧
        ∀ power, g.power u.kind = some power → power.rank ≤ Power.additive.rank := by
  intro g t before after sum
  have hg : g.Registered := Registered.empty
    |>.operator .star .additive
    |>.operator .plus .multiplicative
    |>.operand .number .literal (by decide)
  have hinside : Inside (before ++ t .number "2" :: after.take 4) := by
    simp [before, after, t, Inside, Token.Lexical]
  have hlast : Legible [t .eof "EOF"] := .last rfl
  have hts : Closed (before ++ t .number "2" :: after) := (hlast.append hinside).closed
  have hsum : g.expr .additive (t .number "2" :: after) = .ok sum (after.drop 2) :=
    answer?_eq_some_iff.mp (by decide +kernel)
  exact ⟨hg, hts, hsum, (hg.expr_stops.2.2 before after _ _ hts).of_ok hsum⟩

end Grammar

end Spl
