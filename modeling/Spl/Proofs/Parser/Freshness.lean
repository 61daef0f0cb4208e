import Spl.Proofs.Fresh
import Spl.Program.Parser

/-!
What is read carries no types: all nodes that a grammar reads are fresh, by
whatever tables it reads them, and so is every program.
-/

namespace Spl

/-! ### Properties of what is read -/

namespace Parser

variable {α β : Type}

/-- Whatever tokens it reads, all that the parser answers has the property. -/
def Returns (p : Parser α) (Q : α → Prop) : Prop :=
  ∀ ts a rest, p ts = .ok a rest → Q a

namespace Returns

variable {p : Parser α} {Q : α → Prop}

theorem pure {a : α} (h : Q a) : Returns (Pure.pure a) Q := by
  rintro ts b rest ⟨⟩
  exact h

theorem throw (halt : Halt) : Returns (throw halt : Parser α) Q := by
  rintro ts a rest ⟨⟩

theorem fail (d : Diagnostic) : Returns (Parser.fail d : Parser α) Q :=
  throw _

theorem bind {f : α → Parser β} {R : β → Prop} (hp : Returns p Q)
    (hf : ∀ a, Q a → Returns (f a) R) : Returns (p >>= f) R := by
  intro ts b rest h
  simp only [Bind.bind, EStateM.bind] at h
  split at h
  · next a mid hts => exact hf a (hp ts a mid hts) mid b rest h
  · cases h

/-- What is read by the first of two parsers need not matter. -/
theorem after {f : α → Parser β} {R : β → Prop} (hf : ∀ a, Returns (f a) R) :
    Returns (p >>= f) R :=
  bind (Q := fun _ => True) (fun _ _ _ _ => trivial) fun a _ => hf a

theorem unexpected : Returns (Parser.unexpected : Parser α) Q :=
  after fun _ => fail _

theorem misplaced (message : String) : Returns (Parser.misplaced message : Parser α) Q :=
  after fun _ => fail _

theorem foldWhile {more : TokenKind → Bool} {step : α → Parser α} {a : α} (ha : Q a)
    (hstep : ∀ a, Q a → Returns (step a) Q) : Returns (foldWhile more step a) Q := by
  intro ts
  suffices h : ∀ n a, Q a → Returns (foldWithin more step n a) Q from h _ a ha ts
  intro n
  induction n with
  | zero => exact fun a _ => throw _
  | succ n ih =>
      intro a ha
      apply after
      intro kind
      split
      · exact bind (hstep a ha) ih
      · exact pure ha

theorem collectWhile {more : TokenKind → Bool} (hp : Returns p Q) :
    Returns (collectWhile more p) fun xs => ∀ x ∈ xs, Q x := by
  intro ts
  suffices h : ∀ n, Returns (collectWithin more p n) fun xs => ∀ x ∈ xs, Q x from h _ ts
  intro n
  induction n with
  | zero => exact throw _
  | succ n ih =>
      apply after
      intro kind
      split
      · refine bind hp fun x hx => bind ih fun xs hxs => pure ?_
        exact List.forall_mem_cons.mpr ⟨hx, hxs⟩
      · exact pure (by simp)

theorem parenthesised (hp : Returns p Q) : Returns (parenthesised p) fun xs => ∀ x ∈ xs, Q x := by
  apply after
  intro kind
  split
  · exact pure (by simp)
  · refine bind hp fun x hx => bind (collectWhile (after fun _ => hp)) fun xs hxs => pure ?_
    exact List.forall_mem_cons.mpr ⟨hx, hxs⟩

theorem braced (hp : Returns p Q) : Returns (braced p) fun xs => ∀ x ∈ xs, Q x := by
  refine bind (collectWhile (Q := Q) (after fun more => ?_)) fun xs hxs => after fun _ => pure hxs
  split
  · exact hp
  · exact unexpected

end Returns

end Parser

/-! ### Fresh nodes are read -/

open Spl.Parser

theorem returns_intLiteral : Returns intLiteral Expr.Fresh := by
  refine Returns.after fun t => ?_
  cases Literal.value t with
  | ok value => exact Returns.pure rfl
  | error halt => exact Returns.throw halt

theorem returns_variableWith {inner : Power → Parser Expr}
    (h : ∀ power, Returns (inner power) Expr.Fresh) :
    Returns (variableWith inner) Variable.Fresh := by
  refine Returns.after fun name => Returns.foldWhile rfl fun array harray => ?_
  refine Returns.after fun _ => Returns.bind (h _) fun index hindex => ?_
  exact Returns.after fun _ => Returns.pure ⟨harray, hindex, rfl⟩

namespace Grammar

theorem returns_operand {inner : Power → Parser Expr} (rule : OperandRule)
    (h : ∀ power, Returns (inner power) Expr.Fresh) :
    Returns (rule.readWith inner) Expr.Fresh := by
  cases rule with
  | literal => exact returns_intLiteral
  | var => exact Returns.bind (returns_variableWith h) fun v hv => Returns.pure ⟨hv, rfl⟩
  | negation =>
      exact Returns.after fun _ => Returns.bind (h _) fun e he => Returns.pure ⟨he, rfl⟩
  | group =>
      exact Returns.after fun _ => Returns.bind (h _) fun e he =>
        Returns.after fun _ => Returns.pure he

theorem returns_operator (g : Grammar) {inner : Power → Parser Expr} {left : Expr}
    (h : ∀ power, Returns (inner power) Expr.Fresh) (hleft : left.Fresh) :
    Returns (g.operatorWith inner left) Expr.Fresh := by
  refine Returns.after fun kind => ?_
  split
  · refine Returns.after fun t => ?_
    split
    · exact Returns.fail _
    · refine Returns.bind (h _) fun right hright => Returns.after fun kind => ?_
      split
      · exact Returns.misplaced _
      · exact Returns.pure ⟨hleft, hright, rfl⟩
  · exact Returns.unexpected

theorem returns_exprWithin (g : Grammar) (n : Nat) (power : Power) :
    Returns (g.exprWithin n power) Expr.Fresh := by
  induction n generalizing power with
  | zero => exact Returns.throw _
  | succ n ih =>
      refine Returns.after fun kind => ?_
      cases g.operand kind with
      | none => exact Returns.unexpected
      | some rule =>
          exact Returns.bind (returns_operand rule ih) fun left hleft =>
            Returns.foldWhile hleft fun left hleft => returns_operator g ih hleft

theorem returns_expr (g : Grammar) (power : Power) : Returns (g.expr power) Expr.Fresh :=
  fun ts => returns_exprWithin g _ power ts

theorem returns_typeExpr (g : Grammar) : Returns g.typeExpr TypeExpr.Fresh := by
  intro ts
  suffices h : ∀ n, Returns (g.typeWithin n) TypeExpr.Fresh from h _ ts
  intro n
  induction n with
  | zero => exact Returns.throw _
  | succ n ih =>
      refine Returns.after fun kind => ?_
      cases g.type kind with
      | none => exact Returns.misplaced _
      | some rule =>
          cases rule with
          | any => exact ih
          | named => exact Returns.after fun _ => Returns.pure rfl
          | array =>
              iterate 5 refine Returns.after fun _ => ?_
              exact Returns.bind ih fun element helement => Returns.pure ⟨helement, rfl⟩

theorem returns_condition (g : Grammar) : Returns g.condition Expr.Fresh :=
  Returns.after fun _ => Returns.bind (returns_expr g _) fun _ he =>
    Returns.after fun _ => Returns.pure he

theorem returns_callStmt (g : Grammar) : Returns g.callStmt Stmt.Fresh := by
  refine Returns.after fun _ => Returns.after fun _ => ?_
  refine Returns.bind (Returns.parenthesised (returns_expr g _)) fun arguments h => ?_
  exact Returns.after fun _ => Returns.after fun _ => Returns.pure (.call h)

theorem returns_assignStmt (g : Grammar) : Returns g.assignStmt Stmt.Fresh := by
  refine Returns.bind (returns_variableWith (returns_expr g)) fun target htarget => ?_
  refine Returns.after fun _ => Returns.bind (returns_expr g _) fun value hvalue => ?_
  exact Returns.after fun _ => Returns.pure (.assign htarget hvalue)

theorem returns_elseBranch {inner : Parser Stmt} (h : Returns inner Stmt.Fresh) :
    Returns (elseBranch inner) Stmt.Fresh := by
  refine Returns.after fun kind => ?_
  split
  · exact Returns.after fun _ => h
  · exact Returns.after fun _ => Returns.pure .empty

theorem returns_stmtWithin (g : Grammar) (n : Nat) : Returns (g.stmtWithin n) Stmt.Fresh := by
  induction n with
  | zero => exact Returns.throw _
  | succ n ih =>
      refine Returns.after fun kind => ?_
      cases g.statement kind with
      | none => exact Returns.misplaced _
      | some rule =>
          cases rule with
          | any => exact ih
          | empty => exact Returns.after fun _ => Returns.pure .empty
          | compound =>
              exact Returns.after fun _ => Returns.bind (Returns.braced ih) fun body hbody =>
                Returns.pure (.compound hbody)
          | conditional =>
              refine Returns.after fun _ => Returns.bind (returns_condition g) fun _ hc => ?_
              refine Returns.bind ih fun _ ht => Returns.bind (returns_elseBranch ih) fun _ he => ?_
              exact Returns.pure (.conditional hc ht he)
          | loop =>
              exact Returns.after fun _ => Returns.bind (returns_condition g) fun _ hc =>
                Returns.bind ih fun _ hb => Returns.pure (.loop hc hb)
          | callOrAssign =>
              refine Returns.after fun next => ?_
              split
              · exact returns_callStmt g
              · exact returns_assignStmt g
          | call => exact returns_callStmt g
          | assign => exact returns_assignStmt g

theorem returns_stmt (g : Grammar) : Returns g.stmt Stmt.Fresh :=
  fun ts => returns_stmtWithin g _ ts

theorem returns_typeDeclaration (g : Grammar) :
    Returns g.typeDeclaration fun d => d.type.Fresh := by
  iterate 3 refine Returns.after fun _ => ?_
  exact Returns.bind (returns_typeExpr g) fun _ h => Returns.after fun _ => Returns.pure h

theorem returns_parameter (g : Grammar) : Returns g.parameter fun p => p.type.Fresh := by
  refine Returns.after fun kind => ?_
  dsimp only
  split
  · iterate 3 refine Returns.after fun _ => ?_
    exact Returns.bind (returns_typeExpr g) fun _ h => Returns.pure h
  · iterate 2 refine Returns.after fun _ => ?_
    exact Returns.bind (returns_typeExpr g) fun _ h => Returns.pure h

theorem returns_localVariable (g : Grammar) : Returns g.localVariable fun v => v.type.Fresh := by
  iterate 3 refine Returns.after fun _ => ?_
  exact Returns.bind (returns_typeExpr g) fun _ h => Returns.after fun _ => Returns.pure h

theorem returns_procedure (g : Grammar) : Returns g.procedure Procedure.Fresh := by
  iterate 3 refine Returns.after fun _ => ?_
  refine Returns.bind (Returns.parenthesised (returns_parameter g)) fun parameters hp => ?_
  iterate 2 refine Returns.after fun _ => ?_
  refine Returns.bind (Returns.collectWhile (returns_localVariable g)) fun locals hl => ?_
  exact Returns.bind (Returns.braced (returns_stmt g)) fun body hb => Returns.pure ⟨hp, hl, hb⟩

theorem returns_declaration (g : Grammar) : Returns g.declaration Declaration.Fresh := by
  refine Returns.after fun kind => ?_
  split
  · exact Returns.bind (returns_typeDeclaration g) fun _ h => Returns.pure h
  · exact Returns.bind (returns_procedure g) fun _ h => Returns.pure h
  · exact Returns.misplaced _

theorem returns_program (g : Grammar) (file : String) :
    Returns (g.program file) Program.Fresh :=
  Returns.bind (Returns.collectWhile (returns_declaration g)) fun _ h =>
    Returns.after fun _ => Returns.pure h

end Grammar

/-- A program that was just read has no types yet. -/
theorem Program.fresh_of_parse {file : String} {tokens rest : List Token} {p : Program}
    (h : parse file tokens = .ok p rest) : p.Fresh :=
  Grammar.returns_program _ file tokens p rest h

end Spl
