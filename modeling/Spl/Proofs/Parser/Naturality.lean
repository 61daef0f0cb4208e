import Spl.Proofs.Parser.Freshness
import Spl.Proofs.Parser.Steps
import Spl.Proofs.Syntax.Relabelling

/-!
Reading does not look into labels. By whatever tables a reader works, what it
reads from relabelled tokens is what it reads from the given ones, relabelled,
and it stops at the same token. It complains about the token that the one it
would complain about has become.
-/

namespace Spl

namespace Relabelling

/-- The complaint of a reader about a token, and the same complaint about the
token that it has become. -/
inductive Complaint (ρ : Relabelling) : Halt → Halt → Prop
  | unexpected (t : Token) : Complaint ρ (.diagnostic (Parser.unexpectedToken t))
      (.diagnostic (Parser.unexpectedToken (ρ.token t)))
  | misplaced (t : Token) (message : String) :
      Complaint ρ (.diagnostic (Parser.misplacedToken t message))
        (.diagnostic (Parser.misplacedToken (ρ.token t) message))
  | unreadable (t : Token) : Complaint ρ (Literal.unreadable t) (Literal.unreadable (ρ.token t))
  | fault (f : Fault) : Complaint ρ (.fault f) (.fault f)

theorem Complaint.eq_relabel {ρ : Relabelling} (hρ : ρ.KeepsNames) {halt halt' : Halt}
    (h : ρ.Complaint halt halt') : halt' = halt.relabel ρ := by
  cases h with
  | fault f => rfl
  | unexpected t | misplaced t | unreadable t =>
      simp only [Halt.relabel, Diagnostic.relabel, Parser.unexpectedToken, Parser.misplacedToken,
        Literal.unreadable, Cause.halt, hρ.value_token, Cause.rename, start_token]

variable {α β : Type}

/-- The two results are the same, or a complaint and what has become of it. -/
inductive Agree (ρ : Relabelling) : Except Halt α → Except Halt α → Prop
  | ok (a : α) : Agree ρ (.ok a) (.ok a)
  | error {halt halt' : Halt} (h : ρ.Complaint halt halt') : Agree ρ (.error halt) (.error halt')

/-- The second answer is the first one on relabelled tokens, as `view` shows it. -/
def Answers (ρ : Relabelling) (view : α → β) :
    EStateM.Result Halt (List Token) α → EStateM.Result Halt (List Token) β → Prop
  | .ok a rest, r => r = .ok (view a) (rest.map ρ.token)
  | .error halt rest, r =>
    ∃ halt', ρ.Complaint halt halt' ∧ r = .error halt' (rest.map ρ.token)

end Relabelling

namespace Parser

variable {α β γ δ : Type} {ρ : Relabelling}

/-- What the second reader makes of relabelled tokens is what the first one
makes of the given ones, as `view` shows it. -/
def Natural (ρ : Relabelling) (view : α → β) (p : Parser α) (q : Parser β) : Prop :=
  ∀ ts, ρ.Answers view (p ts) (q (ts.map ρ.token))

/-! ### Ways of putting readers together -/

namespace Natural

variable {view : α → β} {view' : γ → δ} {p : Parser α} {q : Parser β}

theorem pure (a : α) : Natural ρ view (Pure.pure a) (Pure.pure (view a)) :=
  fun _ => rfl

theorem throw {halt halt' : Halt} (h : ρ.Complaint halt halt') :
    Natural ρ view (throw halt) (throw halt') :=
  fun _ => ⟨halt', h, rfl⟩

/-- The second of two readers is handed what the first one returns only. -/
theorem bind_of_returns {Q : α → Prop} {f : α → Parser γ} {g : β → Parser δ}
    (hp : Natural ρ view p q) (hQ : Returns p Q)
    (hf : ∀ a, Q a → Natural ρ view' (f a) (g (view a))) :
    Natural ρ view' (p >>= f) (q >>= g) := by
  intro ts
  have hts := hp ts
  simp only [Bind.bind, EStateM.bind]
  cases hrun : p ts with
  | ok a rest =>
      rw [hrun] at hts
      rw [show q (ts.map ρ.token) = _ from hts]
      exact hf a (hQ ts a rest hrun) rest
  | error halt rest =>
      rw [hrun] at hts
      obtain ⟨halt', hhalt, hq⟩ := hts
      rw [hq]
      exact ⟨halt', hhalt, rfl⟩

theorem bind {f : α → Parser γ} {g : β → Parser δ} (hp : Natural ρ view p q)
    (hf : ∀ a, Natural ρ view' (f a) (g (view a))) : Natural ρ view' (p >>= f) (q >>= g) :=
  bind_of_returns (Q := fun _ => True) hp (fun _ _ _ _ => trivial) fun a _ => hf a

theorem current : Natural ρ ρ.token current current
  | [] => ⟨_, .fault _, rfl⟩
  | _ :: _ => rfl

theorem take : Natural ρ ρ.token take take
  | [] => ⟨_, .fault _, rfl⟩
  | [_] => rfl
  | _ :: _ :: _ => rfl

theorem currentKind : Natural ρ id currentKind currentKind :=
  bind current fun t => pure t.kind

theorem peekKind : Natural ρ id peekKind peekKind
  | [] => rfl
  | [_] => rfl
  | _ :: _ :: _ => rfl

theorem unfinished : Natural ρ id unfinished unfinished :=
  bind currentKind fun kind => pure (kind != .eof)

theorem position : Natural ρ ρ.place position position :=
  bind current fun t => pure t.span.start

theorem unexpected : Natural ρ view unexpected unexpected :=
  bind current fun t => throw (.unexpected t)

theorem misplaced (message : String) : Natural ρ view (misplaced message) (misplaced message) :=
  bind current fun t => throw (.misplaced t message)

theorem expect (kind : TokenKind) : Natural ρ ρ.token (expect kind) (expect kind) := by
  refine bind current fun t => ?_
  rw [Relabelling.kind_token]
  split
  · exact take
  · exact throw (.misplaced t _)

theorem returns_expect (kind : TokenKind) : Returns (Parser.expect kind) (·.kind = kind) := by
  rintro (_ | ⟨t, us⟩) u rest h
  · cases h
  · by_cases ht : t.kind = kind
    · obtain ⟨others, htake⟩ := exists_take t us
      rw [Parser.expect, ← ht, expectOr_of_kind, htake] at h
      cases h
      exact ht
    · rw [Parser.expect, expectOr_of_ne ht] at h
      cases h

/-- The value of an identifier is a name. -/
theorem bind_identifier {f g : Token → Parser γ} {view : γ → γ}
    (hf : ∀ t, (ρ.token t).value = ρ.name t.value → Natural ρ view (f t) (g (ρ.token t))) :
    Natural ρ view (Parser.expect .identifier >>= f) (Parser.expect .identifier >>= g) :=
  bind_of_returns (expect .identifier) (returns_expect .identifier) fun t ht =>
    hf t (ρ.value_token_of_identifier ht)

/-- Relabelled tokens are as many, so there are as many rounds for them. -/
theorem within {p : Nat → Parser α} {q : Nat → Parser β} (h : ∀ n, Natural ρ view (p n) (q n))
    (k : Nat) : Natural ρ view (fun ts => p (ts.length + k) ts) fun ts => q (ts.length + k) ts := by
  intro ts
  change ρ.Answers view (p (ts.length + k) ts)
    (q ((ts.map ρ.token).length + k) (ts.map ρ.token))
  rw [List.length_map]
  exact h _ ts

theorem foldWhile {more : TokenKind → Bool} {step : α → Parser α} {step' : β → Parser β} (a : α)
    (h : ∀ a, Natural ρ view (step a) (step' (view a))) :
    Natural ρ view (foldWhile more step a) (foldWhile more step' (view a)) := by
  suffices hwithin : ∀ n a, Natural ρ view (foldWithin more step n a)
      (foldWithin more step' n (view a)) from within (fun n => hwithin n a) 1
  intro n
  induction n with
  | zero => exact fun a => throw (.fault _)
  | succ n ih =>
      intro a
      refine bind currentKind fun kind => ?_
      dsimp only [id]
      split
      · exact bind (h a) ih
      · exact pure a

theorem collectWhile {more : TokenKind → Bool} (h : Natural ρ view p q) :
    Natural ρ (List.map view) (collectWhile more p) (collectWhile more q) := by
  suffices hwithin : ∀ n, Natural ρ (List.map view) (collectWithin more p n)
      (collectWithin more q n) from within hwithin 1
  intro n
  induction n with
  | zero => exact throw (.fault _)
  | succ n ih =>
      refine bind currentKind fun kind => ?_
      dsimp only [id]
      split
      · exact bind h fun x => bind ih fun xs => pure (x :: xs)
      · exact pure []

theorem parenthesised (h : Natural ρ view p q) :
    Natural ρ (List.map view) (parenthesised p) (parenthesised q) := by
  refine bind currentKind fun kind => ?_
  dsimp only [id]
  split
  · exact pure []
  · refine bind h fun x => bind (collectWhile (bind take fun _ => h)) fun xs => ?_
    exact pure (x :: xs)

theorem braced (h : Natural ρ view p q) :
    Natural ρ (List.map view) (braced p) (braced q) := by
  have hitem : Natural ρ view (do if ← Parser.unfinished then p else Parser.unexpected)
      (do if ← Parser.unfinished then q else Parser.unexpected) := by
    refine bind unfinished fun more => ?_
    dsimp only [id]
    split
    · exact h
    · exact unexpected
  exact bind (collectWhile hitem) fun xs => bind (expect _) fun _ => pure xs

end Natural

end Parser

/-! ### The readers -/

/-- The value of a literal is not a matter of its labels. -/
theorem Literal.agree_value (ρ : Relabelling) (t : Token) :
    ρ.Agree (Literal.value t) (Literal.value (ρ.token t)) := by
  have hread : ∀ n? : Option Int32, ρ.Agree (n?.elim (throw (unreadable t)) pure)
      (n?.elim (throw (unreadable (ρ.token t))) pure)
    | none => .error (.unreadable t)
    | some n => .ok n
  rw [value, value, Relabelling.kind_token]
  split
  · next hkind =>
      rw [ρ.value_token_of_ne (by rw [hkind]; decide)]
      exact hread _
  · next hkind =>
      rw [ρ.value_token_of_ne (by rw [hkind]; decide)]
      split
      · exact .error (.fault _)
      · exact hread _
  · next hkind =>
      rw [ρ.value_token_of_ne (by rw [hkind]; decide)]
      exact hread _
  · exact .error (.misplaced t _)

theorem Literal.agree_size (ρ : Relabelling) (t : Token) :
    ρ.Agree (Literal.size t) (Literal.size (ρ.token t)) := by
  have hvalue := agree_value ρ t
  rw [size, size]
  generalize Literal.value t = x, Literal.value (ρ.token t) = y at hvalue ⊢
  cases hvalue with
  | error h => exact .error h
  | ok n =>
      simp only [bind, Except.bind]
      split
      · exact .ok n.toUInt32
      · exact .error (.unreadable t)

open Spl.Parser

section Readers

variable {ρ : Relabelling}

theorem natural_intLiteral : Natural ρ (Expr.relabel ρ) intLiteral intLiteral := by
  refine .bind .take fun t => ?_
  have hvalue := Literal.agree_value ρ t
  generalize Literal.value t = x, Literal.value (ρ.token t) = y at hvalue ⊢
  cases hvalue with
  | ok n => exact .pure (Expr.int n t.span.start none)
  | error h => exact .throw h

theorem natural_arraySize : Natural ρ id arraySize arraySize := by
  refine .bind .take fun t => ?_
  have hsize := Literal.agree_size ρ t
  generalize Literal.size t = x, Literal.size (ρ.token t) = y at hsize ⊢
  cases hsize with
  | ok n => exact .pure n
  | error h => exact .throw h

theorem natural_variableWith {inner : Power → Parser Expr}
    (h : ∀ power, Natural ρ (Expr.relabel ρ) (inner power) (inner power)) :
    Natural ρ (Variable.relabel ρ) (variableWith inner) (variableWith inner) := by
  refine .bind_identifier fun name hname => ?_
  rw [hname]
  refine .foldWhile (Variable.named name.value name.span.start none) fun array => ?_
  refine .bind .take fun _ => .bind (h _) fun index => .bind (.expect _) fun _ => ?_
  exact .pure (Variable.element array index name.span.start none)

namespace Grammar

variable (g : Grammar)

theorem natural_operand {inner : Power → Parser Expr} (rule : OperandRule)
    (h : ∀ power, Natural ρ (Expr.relabel ρ) (inner power) (inner power)) :
    Natural ρ (Expr.relabel ρ) (rule.readWith inner) (rule.readWith inner) := by
  cases rule with
  | literal => exact natural_intLiteral
  | var =>
      refine .bind (natural_variableWith h) fun v => ?_
      rw [Variable.position_relabel]
      exact .pure (Expr.var v v.position none)
  | negation =>
      exact .bind .take fun op => .bind (h _) fun e =>
        .pure (Expr.unary .minus e op.span.start none)
  | group =>
      exact .bind .take fun _ => .bind (h _) fun e => .bind (.expect _) fun _ => .pure e

theorem natural_operator {inner : Power → Parser Expr} (left : Expr)
    (h : ∀ power, Natural ρ (Expr.relabel ρ) (inner power) (inner power)) :
    Natural ρ (Expr.relabel ρ) (g.operatorWith inner left)
      (g.operatorWith inner (left.relabel ρ)) := by
  refine .bind .currentKind fun kind => ?_
  dsimp only [id]
  split
  · refine .bind .take fun t => ?_
    rw [Relabelling.kind_token]
    split
    · exact .throw (.unexpected t)
    · next op _ =>
        refine .bind (h _) fun right => .bind .currentKind fun kind => ?_
        dsimp only [id]
        split
        · exact .misplaced _
        · exact .pure (Expr.binary op left right t.span.start none)
  · exact .unexpected

theorem natural_exprWithin (n : Nat) (power : Power) :
    Natural ρ (Expr.relabel ρ) (g.exprWithin n power) (g.exprWithin n power) := by
  induction n generalizing power with
  | zero => exact .throw (.fault _)
  | succ n ih =>
      refine .bind .currentKind fun kind => ?_
      dsimp only [id]
      cases g.operand kind with
      | none => exact .unexpected
      | some rule =>
          exact .bind (natural_operand rule ih) fun left =>
            .foldWhile left fun left => g.natural_operator left ih

theorem natural_expr (power : Power) :
    Natural ρ (Expr.relabel ρ) (g.expr power) (g.expr power) :=
  .within (fun n => g.natural_exprWithin n power) 2

theorem natural_typeExpr : Natural ρ (TypeExpr.relabel ρ) g.typeExpr g.typeExpr := by
  suffices h : ∀ n, Natural ρ (TypeExpr.relabel ρ) (g.typeWithin n) (g.typeWithin n) from
    .within h 2
  intro n
  induction n with
  | zero => exact .throw (.fault _)
  | succ n ih =>
      refine .bind .currentKind fun kind => ?_
      dsimp only [id]
      cases g.type kind with
      | none => exact .misplaced _
      | some rule =>
          cases rule with
          | any => exact ih
          | named =>
              refine .bind_identifier fun name hname => ?_
              rw [hname]
              exact .pure (TypeExpr.named name.value name.span.start none)
          | array =>
              refine .bind (.expect _) fun start => .bind (.expect _) fun _ => ?_
              refine .bind natural_arraySize fun size => .bind (.expect _) fun _ => ?_
              refine .bind (.expect _) fun _ => .bind ih fun element => ?_
              exact .pure (TypeExpr.array size element start.span.start none)

theorem natural_condition : Natural ρ (Expr.relabel ρ) g.condition g.condition :=
  .bind (.expect _) fun _ => .bind (g.natural_expr _) fun e => .bind (.expect _) fun _ => .pure e

theorem natural_callStmt : Natural ρ (Stmt.relabel ρ) g.callStmt g.callStmt := by
  refine .bind_identifier fun name hname => .bind (.expect _) fun _ => ?_
  refine .bind (.parenthesised (g.natural_expr _)) fun arguments => ?_
  rw [hname]
  refine .bind (.expect _) fun _ => .bind (.expect _) fun _ => ?_
  exact .pure (Stmt.call name.value arguments name.span.start)

theorem natural_assignStmt : Natural ρ (Stmt.relabel ρ) g.assignStmt g.assignStmt := by
  refine .bind (natural_variableWith g.natural_expr) fun target => ?_
  refine .bind (.expect _) fun mark => .bind (g.natural_expr _) fun value => ?_
  exact .bind (.expect _) fun _ => .pure (Stmt.assign target value mark.span.start)

theorem natural_elseBranch {inner : Parser Stmt}
    (h : Natural ρ (Stmt.relabel ρ) inner inner) :
    Natural ρ (Stmt.relabel ρ) (elseBranch inner) (elseBranch inner) := by
  refine .bind .currentKind fun kind => ?_
  dsimp only [id]
  split
  · exact .bind .take fun _ => h
  · exact .bind .position fun position => .pure (Stmt.empty position)

theorem natural_stmtWithin (n : Nat) :
    Natural ρ (Stmt.relabel ρ) (g.stmtWithin n) (g.stmtWithin n) := by
  induction n with
  | zero => exact .throw (.fault _)
  | succ n ih =>
      refine .bind .currentKind fun kind => ?_
      dsimp only [id]
      cases g.statement kind with
      | none => exact .misplaced _
      | some rule =>
          cases rule with
          | any => exact ih
          | empty => exact .bind .take fun t => .pure (Stmt.empty t.span.start)
          | compound =>
              refine .bind .take fun t => .bind (.braced ih) fun body => ?_
              rw [← Stmt.relabelAll_eq_map]
              exact .pure (Stmt.compound body t.span.start)
          | conditional =>
              refine .bind .take fun t => .bind g.natural_condition fun test => ?_
              refine .bind ih fun thenBranch => .bind (natural_elseBranch ih) fun elseBranch => ?_
              exact .pure (Stmt.conditional test thenBranch elseBranch t.span.start)
          | loop =>
              refine .bind .take fun t => .bind g.natural_condition fun test => ?_
              exact .bind ih fun body => .pure (Stmt.loop test body t.span.start)
          | callOrAssign =>
              refine .bind .peekKind fun next => ?_
              dsimp only [id]
              split
              · exact g.natural_callStmt
              · exact g.natural_assignStmt
          | call => exact g.natural_callStmt
          | assign => exact g.natural_assignStmt

theorem natural_stmt : Natural ρ (Stmt.relabel ρ) g.stmt g.stmt :=
  .within g.natural_stmtWithin 2

theorem natural_typeDeclaration :
    Natural ρ (TypeDeclaration.relabel ρ) g.typeDeclaration g.typeDeclaration := by
  refine .bind (.expect _) fun start => .bind_identifier fun name hname => ?_
  refine .bind (.expect _) fun _ => .bind g.natural_typeExpr fun type => ?_
  rw [hname]
  exact .bind (.expect _) fun _ => .pure (TypeDeclaration.mk name.value type start.span.start)

theorem natural_parameter : Natural ρ (Parameter.relabel ρ) g.parameter g.parameter := by
  refine .bind .currentKind fun kind => ?_
  dsimp only [id]
  have hrest : ∀ byReference, Natural ρ (Parameter.relabel ρ)
      (do
        let name ← expect .identifier
        let _ ← expect .colon
        let type ← g.typeExpr
        return ⟨name.value, type, byReference, name.span.start⟩)
      (do
        let name ← expect .identifier
        let _ ← expect .colon
        let type ← g.typeExpr
        return ⟨name.value, type, byReference, name.span.start⟩) := by
    intro byReference
    refine .bind_identifier fun name hname => .bind (.expect _) fun _ => ?_
    refine .bind g.natural_typeExpr fun type => ?_
    rw [hname]
    exact .pure (Parameter.mk name.value type byReference name.span.start)
  split
  · exact .bind .take fun _ => hrest _
  · exact hrest _

theorem natural_localVariable :
    Natural ρ (LocalVariable.relabel ρ) g.localVariable g.localVariable := by
  refine .bind (.expect _) fun _ => .bind_identifier fun name hname => ?_
  refine .bind (.expect _) fun _ => .bind g.natural_typeExpr fun type => ?_
  rw [hname]
  exact .bind (.expect _) fun _ => .pure (LocalVariable.mk name.value type name.span.start)

theorem natural_procedure : Natural ρ (Procedure.relabel ρ) g.procedure g.procedure := by
  refine .bind (.expect _) fun _ => .bind_identifier fun name hname => ?_
  refine .bind (.expect _) fun _ => .bind (.parenthesised g.natural_parameter) fun parameters => ?_
  refine .bind (.expect _) fun _ => .bind (.expect _) fun _ => ?_
  refine .bind (.collectWhile g.natural_localVariable) fun locals => ?_
  refine .bind (.braced g.natural_stmt) fun body => ?_
  rw [hname, ← Stmt.relabelAll_eq_map]
  exact .pure (Procedure.mk name.value parameters locals body name.span.start)

theorem natural_declaration : Natural ρ (Declaration.relabel ρ) g.declaration g.declaration := by
  refine .bind .currentKind fun kind => ?_
  dsimp only [id]
  split
  · exact .bind g.natural_typeDeclaration fun t => .pure (Declaration.type t)
  · exact .bind g.natural_procedure fun p => .pure (Declaration.procedure p)
  · exact .misplaced _

/-- A program is read from relabelled tokens if it is read from the given ones. -/
theorem natural_program {file file' : String} (hfile : ρ.place ⟨0, file⟩ = ⟨0, file'⟩) :
    Natural ρ (Program.relabel ρ) (g.program file) (g.program file') := by
  refine .bind (.collectWhile g.natural_declaration) fun declarations => ?_
  refine .bind .position fun position => ?_
  rw [← hfile]
  exact .pure (Program.mk declarations ⟨⟨0, file⟩, position⟩)

end Grammar

end Readers

end Spl
