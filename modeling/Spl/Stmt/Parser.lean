import Spl.Expr.Parser
import Spl.Stmt

/-!
Reading statements.
-/

namespace Spl

open Spl.Parser

/-- The condition of a statement, in its parentheses. -/
def Grammar.condition (g : Grammar) : Parser Expr := do
  let _ ← expect .openParen
  let e ← g.anyExpr
  let _ ← expect .closeParen
  return e

def Grammar.callStmt (g : Grammar) : Parser Stmt := do
  let name ← expect .identifier
  let _ ← expect .openParen
  let arguments ← parenthesised g.anyExpr
  let _ ← expect .closeParen
  let _ ← expect .semicolon
  return .call name.value arguments name.span.start

/-- An assignment, which has the position of its `:=`. -/
def Grammar.assignStmt (g : Grammar) : Parser Stmt := do
  let target ← g.place
  let mark ← expect .assignment
  let value ← g.anyExpr
  let _ ← expect .semicolon
  return .assign target value mark.span.start

/-- What follows `else`, or an empty statement at the token where no `else` stands. -/
def elseBranch (inner : Parser Stmt) : Parser Stmt := do
  if (← currentKind) = .elseWord then
    let _ ← take
    inner
  else return .empty (← position)

/-- Reads a statement by a rule, and the statements inside it by `inner`. -/
def StmtRule.readWith (g : Grammar) (inner : Parser Stmt) : StmtRule → Parser Stmt
  | any => inner
  | empty => do
    let t ← take
    return .empty t.span.start
  | compound => do
    let t ← take
    return .compound (← braced inner) t.span.start
  | conditional => do
    let t ← take
    let test ← g.condition
    let thenBranch ← inner
    return .conditional test thenBranch (← elseBranch inner) t.span.start
  | loop => do
    let t ← take
    let test ← g.condition
    return .loop test (← inner) t.span.start
  | callOrAssign => do
    if (← peekKind) = .openParen then g.callStmt else g.assignStmt
  | call => g.callStmt
  | assign => g.assignStmt

/-- Reads a statement with at most `n` statements nested in one another. -/
def Grammar.stmtWithin (g : Grammar) : Nat → Parser Stmt
  | 0 => throw (.fault .noProgress)
  | n + 1 => do
    match g.statement (← currentKind) with
    | some rule => rule.readWith g (g.stmtWithin n)
    | none => misplaced "expected a statement"

/-- Reads a statement. One inside another starts behind a token at least. -/
def Grammar.stmt (g : Grammar) : Parser Stmt :=
  fun ts => g.stmtWithin (ts.length + 2) ts

def StmtRule.read (g : Grammar) (rule : StmtRule) : Parser Stmt :=
  rule.readWith g g.stmt

end Spl
