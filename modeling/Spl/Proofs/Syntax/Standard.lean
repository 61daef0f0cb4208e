import Spl.Program.Parser
import Spl.Proofs.Parser.Steps
import Spl.Proofs.Syntax.Rules

/-!
The tables of the language beside its rules: which tokens phrases start with,
which operators the tables know, and which level of expressions is read up to
which power. The readers are taken apart here, too, as far as proofs need names
for their parts.
-/

namespace Spl

/-! ### Levels and powers -/

/-- The loosest level that is read for the sake of operators that bind tighter
than the power. -/
def Power.tier : Power → Tier
  | lowest => .comparison
  | relational => .sum
  | additive => .product
  | multiplicative => .signed
  | unary => .signed
  | primary => .signed

/-- The operators of a power. -/
def Power.operators : Power → List (TokenKind × BinaryOp)
  | relational => Tier.comparisons
  | additive => Tier.additions
  | multiplicative => Tier.multiplications
  | _ => []

/-- The level of what an operator of the power makes of its operands. -/
def Power.result : Power → Tier
  | relational => .comparison
  | additive => .sum
  | _ => .product

namespace Tier

def rank : Tier → Nat
  | comparison => 0
  | sum => 1
  | product => 2
  | signed => 3
  | primary => 4

/-- The tightest power that an operator behind an expression of the level can
have. Behind a comparison there is none, for comparisons do not chain. -/
def bound : Tier → Power
  | comparison => .lowest
  | sum => .additive
  | product => .multiplicative
  | signed => .multiplicative
  | primary => .multiplicative

end Tier

/-- An expression of one level is one of all looser levels as well. -/
theorem ExprPhrase.Derives.loosen {ts : List Token} {e : Expr} {tier tier' : Tier}
    (h : Derives ts (.expr tier e)) (hle : tier'.rank ≤ tier.rank) :
    Derives ts (.expr tier' e) := by
  have hsigned : ∀ {tier}, Tier.signed.rank ≤ tier.rank → Derives ts (.expr tier e) →
      Derives ts (.expr .signed e) := by
    intro tier hle h
    cases tier with
    | signed => exact h
    | primary => exact h.ofPrimary
    | comparison | sum | product => exact absurd hle (by decide)
  have hproduct : ∀ {tier}, Tier.product.rank ≤ tier.rank → Derives ts (.expr tier e) →
      Derives ts (.expr .product e) := by
    intro tier hle h
    cases tier with
    | product => exact h
    | signed | primary => exact (hsigned (by decide) h).ofSigned
    | comparison | sum => exact absurd hle (by decide)
  have hsum : ∀ {tier}, Tier.sum.rank ≤ tier.rank → Derives ts (.expr tier e) →
      Derives ts (.expr .sum e) := by
    intro tier hle h
    cases tier with
    | sum => exact h
    | product | signed | primary => exact (hproduct (by decide) h).ofProduct
    | comparison => exact absurd hle (by decide)
  cases tier' with
  | comparison =>
      cases tier with
      | comparison => exact h
      | sum | product | signed | primary => exact (hsum (by decide) h).ofSum
  | sum => exact hsum hle h
  | product => exact hproduct hle h
  | signed => exact hsigned hle h
  | primary =>
      cases tier with
      | primary => exact h
      | comparison | sum | product | signed => exact absurd hle (by decide)

/-- An operator can stand behind all expressions that it does not bind tighter
than, and its right operand is of the level that is read up to its power. -/
theorem ExprPhrase.Derives.binary {power : Power} {tier : Tier} {ts us : List Token} {mark : Token}
    {op : BinaryOp} {left right : Expr} (hop : (mark.kind, op) ∈ power.operators)
    (hbound : power.rank ≤ tier.bound.rank) (hleft : Derives ts (.expr tier left))
    (hright : Derives us (.expr power.tier right)) :
    Derives (ts ++ mark :: us)
      (.expr power.result (.binary op left right mark.span.start none)) := by
  cases power with
  | relational =>
      exact .comparison (hleft.loosen (by cases tier <;> revert hbound <;> decide)) hop hright
  | additive => exact .sum (hleft.loosen (by cases tier <;> revert hbound <;> decide)) hop hright
  | multiplicative =>
      exact .product (hleft.loosen (by cases tier <;> revert hbound <;> decide)) hop hright
  | lowest | unary | primary => cases hop

/-- What is read for the sake of a power is made by just the operators that
bind tighter. -/
theorem Power.lt_iff_tier_rank_le {power power' : Power} {entry : TokenKind × BinaryOp}
    (hop : entry ∈ power'.operators) :
    power < power' ↔ power.tier.rank ≤ power'.result.rank := by
  cases power' with
  | relational | additive | multiplicative => cases power <;> decide
  | lowest | unary | primary => cases hop

/-- A reader that stops where nothing binds tighter than an operator, and not
in front of a second comparison, stops where no operator can follow that the
operator would be an operand of. -/
theorem Power.rank_le_bound_result {power next : Power} {entry : TokenKind × BinaryOp}
    (hop : entry ∈ power.operators) (hstop : ¬ power < next)
    (hchain : ¬ (power = .relational ∧ next = .relational)) :
    next.rank ≤ power.result.bound.rank := by
  cases power with
  | relational | additive | multiplicative =>
      cases next <;> revert hstop hchain <;> decide
  | lowest | unary | primary => cases hop

/-- In front of what can follow the whole, a reader of the right operand stops,
and not at a second comparison. -/
theorem Power.stops_of_rank_le {power next : Power} {entry : TokenKind × BinaryOp}
    (hop : entry ∈ power.operators) (h : next.rank ≤ power.result.bound.rank) :
    ¬ power < next ∧ ¬ (power = .relational ∧ next = .relational) ∧
      next.rank ≤ power.tier.bound.rank := by
  cases power with
  | relational | additive | multiplicative => cases next <;> revert h <;> decide
  | lowest | unary | primary => cases hop

open Spl.Parser

namespace Grammar

/-! ### Depths

Every reader of phrases nests at most as deep as there are tokens. -/

theorem typeWithin_eq (g : Grammar) {n : Nat} (hn : 0 < n) :
    g.typeWithin n = currentKind >>= fun kind => match g.type kind with
      | some rule => rule.readWith (g.typeWithin (n - 1))
      | none => misplaced "expected a type" := by
  cases n with
  | zero => exact absurd hn (Nat.lt_irrefl 0)
  | succ n => rfl

theorem exprWithin_eq (g : Grammar) {n : Nat} (hn : 0 < n) (power : Power) :
    g.exprWithin n power = currentKind >>= fun kind => match g.operand kind with
      | none => unexpected
      | some rule => rule.readWith (g.exprWithin (n - 1)) >>= fun left =>
        foldWhile (fun kind => decide (power < g.powerOf kind))
          (g.operatorWith (g.exprWithin (n - 1))) left := by
  cases n with
  | zero => exact absurd hn (Nat.lt_irrefl 0)
  | succ n => rfl

theorem stmtWithin_eq (g : Grammar) {n : Nat} (hn : 0 < n) :
    g.stmtWithin n = currentKind >>= fun kind => match g.statement kind with
      | some rule => rule.readWith g (g.stmtWithin (n - 1))
      | none => misplaced "expected a statement" := by
  cases n with
  | zero => exact absurd hn (Nat.lt_irrefl 0)
  | succ n => rfl

theorem typeExpr_apply (g : Grammar) (ts : List Token) :
    g.typeExpr ts = g.typeWithin (ts.length + 2) ts := by
  rw [typeExpr]

theorem expr_apply (g : Grammar) (power : Power) (ts : List Token) :
    g.expr power ts = g.exprWithin (ts.length + 2) power ts := by
  rw [expr]

theorem stmt_apply (g : Grammar) (ts : List Token) :
    g.stmt ts = g.stmtWithin (ts.length + 2) ts := by
  rw [stmt]

/-! ### Parts of readers -/

/-- One index behind a variable, in brackets. -/
def indexWith (inner : Power → Parser Expr) (position : Position) (array : Variable) :
    Parser Variable := do
  let _ ← take
  let index ← inner .lowest
  let _ ← expect .closeBracket
  return .element array index position none

theorem variableWith_eq (inner : Power → Parser Expr) :
    variableWith inner = (expect .identifier >>= fun name =>
      foldWhile (· == .openBracket) (indexWith inner name.span.start)
        (.named name.value name.span.start none)) := rfl

/-- What is read behind the name of a call. -/
def called (g : Grammar) (name : Token) : Parser Stmt := do
  let _ ← expect .openParen
  let arguments ← parenthesised g.anyExpr
  let _ ← expect .closeParen
  let _ ← expect .semicolon
  return .call name.value arguments name.span.start

theorem callStmt_eq (g : Grammar) : g.callStmt = expect .identifier >>= g.called := rfl

/-- What is read behind the target of an assignment. -/
def assigned (g : Grammar) (target : Variable) : Parser Stmt := do
  let mark ← expect .assignment
  let value ← g.anyExpr
  let _ ← expect .semicolon
  return .assign target value mark.span.start

theorem assignStmt_eq (g : Grammar) : g.assignStmt = g.place >>= g.assigned := rfl

/-- What a block reads while its brace is not there. -/
def beforeEnd {α : Type} (item : Parser α) : Parser α := do
  if ← unfinished then item else unexpected

theorem braced_eq {α : Type} (item : Parser α) :
    braced item = (collectWhile (· != .closeCurly) (beforeEnd item) >>= fun items =>
      expect .closeCurly >>= fun _ => pure items) := rfl

theorem beforeEnd_cons {α : Type} {item : Parser α} {t : Token} {ts : List Token}
    (ht : t.kind ≠ .eof) : beforeEnd item (t :: ts) = item (t :: ts) := by
  have hunfinished : unfinished (t :: ts) = .ok (t.kind != .eof) (t :: ts) := rfl
  rw [beforeEnd, bind_eq hunfinished, if_pos (bne_iff_ne.mpr ht)]

theorem beforeEnd_of_eof {α : Type} {item : Parser α} {t : Token} {ts : List Token}
    (ht : t.kind = .eof) : beforeEnd item (t :: ts) = unexpected (t :: ts) := by
  have hunfinished : unfinished (t :: ts) = .ok (t.kind != .eof) (t :: ts) := rfl
  rw [beforeEnd, bind_eq hunfinished, if_neg (by simp [ht])]

/-! ### Tables -/

theorem operand_standard (k : TokenKind) :
    standard.operand k = match k with
      | .number | .hexNumber | .character => some .literal
      | .identifier => some .var
      | .dash => some .negation
      | .openParen => some .group
      | _ => none := by
  cases k <;> rfl

/-- The tokens that an operand read by a rule starts with. -/
theorem kind_of_operand {k : TokenKind} {rule : OperandRule} (h : standard.operand k = some rule) :
    match rule with
    | .literal => k = .number ∨ k = .hexNumber ∨ k = .character
    | .var => k = .identifier
    | .negation => k = .dash
    | .group => k = .openParen := by
  rw [operand_standard] at h
  split at h <;> cases h <;> simp

theorem statement_standard (k : TokenKind) :
    standard.statement k = match k with
      | .semicolon => some .empty
      | .openCurly => some .compound
      | .ifWord => some .conditional
      | .whileWord => some .loop
      | .identifier => some .callOrAssign
      | _ => none := by
  cases k <;> rfl

/-- The token that a statement read by a rule starts with. -/
theorem kind_of_statement {k : TokenKind} {rule : StmtRule}
    (h : standard.statement k = some rule) :
    match rule with
    | .empty => k = .semicolon
    | .compound => k = .openCurly
    | .conditional => k = .ifWord
    | .loop => k = .whileWord
    | .callOrAssign => k = .identifier
    | .any | .call | .assign => False := by
  rw [statement_standard] at h
  split at h <;> cases h <;> rfl

/-- Tokens that the table does not know start no statements. -/
theorem kind_ne_of_statement {k k' : TokenKind} (h : (standard.statement k).isSome = true)
    (h' : standard.statement k' = none) : k ≠ k' := by
  rintro rfl
  rw [h'] at h
  cases h

theorem type_standard (k : TokenKind) :
    standard.type k = match k with
      | .identifier => some .named
      | .arrayWord => some .array
      | _ => none := by
  cases k <;> rfl

/-- What binds at all is an operator, and known as one. -/
theorem operator_of_lt {power : Power} {k : TokenKind} (h : power < standard.powerOf k) :
    standard.joins k = true ∧ standard.power k = some (standard.powerOf k) ∧
      ∃ op, binaryOp? k = some op ∧ (k, op) ∈ (standard.powerOf k).operators := by
  have hnot : ¬ power < Power.lowest := Nat.not_lt_zero _
  cases k <;> first | exact absurd h hnot | exact ⟨rfl, rfl, _, rfl, by decide⟩

theorem powerOf_of_mem {power : Power} {k : TokenKind} {op : BinaryOp}
    (h : (k, op) ∈ power.operators) :
    standard.powerOf k = power ∧ standard.power k = some power ∧ standard.joins k = true ∧
      binaryOp? k = some op := by
  have hall : ∀ entry ∈ power.operators, standard.powerOf entry.1 = power ∧
      standard.power entry.1 = some power ∧ standard.joins entry.1 = true ∧
      binaryOp? entry.1 = some entry.2 := by
    cases power <;> decide
  exact hall (k, op) h

/-- No operator binds tighter than what can stand behind an operand. -/
theorem rank_powerOf_le (k : TokenKind) :
    (standard.powerOf k).rank ≤ Tier.signed.bound.rank := by
  revert k
  decide

theorem power_eq_relational_iff {k : TokenKind} :
    standard.power k = some .relational ↔ standard.powerOf k = .relational := by
  revert k
  decide

end Grammar

/-! ### First tokens -/

open Grammar

/-- An expression starts with a token that the table of operands knows. -/
theorem ExprPhrase.Derives.exists_operand {ts : List Token} {tier : Tier} {e : Expr}
    (h : Derives ts (.expr tier e)) :
    ∃ t us, ts = t :: us ∧ (standard.operand t.kind).isSome = true := by
  generalize hphrase : ExprPhrase.expr tier e = phrase at h
  induction h generalizing tier e with
  | comparison _ _ _ ih _ | sum _ _ _ ih _ | product _ _ _ ih _ =>
      obtain ⟨t, us, rfl, ht⟩ := ih rfl
      exact ⟨t, _, rfl, ht⟩
  | ofSum _ ih | ofProduct _ ih | ofSigned _ ih | ofPrimary _ ih => exact ih rfl
  | negation hsign _ _ => exact ⟨_, _, rfl, by rw [hsign]; rfl⟩
  | literal hdenotes =>
      refine ⟨_, [], rfl, ?_⟩
      cases hdenotes with
      | decimal hkind _ _ | hexadecimal hkind _ _ _ | newline hkind _ | character hkind _ =>
          rw [hkind]
          rfl
  | read hv _ =>
      obtain ⟨name, us, rfl, hname, -⟩ := hv.exists_name
      exact ⟨name, us, rfl, by rw [hname]; rfl⟩
  | group hopened _ _ _ => exact ⟨_, _, rfl, by rw [hopened]; rfl⟩
  | named | element => cases hphrase

/-- A statement starts with a token that the table of statements knows. -/
theorem StmtPhrase.Derives.exists_statement {rule : ElseRule} {next : Position} {ts : List Token}
    {s : Stmt} {d : Bool} (h : Derives rule next ts (.stmt s d)) :
    ∃ t us, ts = t :: us ∧ (standard.statement t.kind).isSome = true := by
  cases h with
  | empty ht => exact ⟨_, [], rfl, by rw [ht]; rfl⟩
  | compound hopened _ _ => exact ⟨_, _, rfl, by rw [hopened]; rfl⟩
  | assign hv _ _ _ =>
      obtain ⟨name, us, rfl, hname, -⟩ := ExprPhrase.Derives.exists_name hv
      exact ⟨name, _, rfl, by rw [hname]; rfl⟩
  | call hname _ _ _ _ => exact ⟨_, _, rfl, by rw [hname]; rfl⟩
  | ifElse hstart _ _ _ _ _ _ _ | ifOnly hstart _ _ _ _ | loop hstart _ _ _ _ =>
      exact ⟨_, _, rfl, by rw [hstart]; rfl⟩

end Spl
