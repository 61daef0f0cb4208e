import Spl.Expr
import Spl.Grammar
import Spl.Token.Literal
import Spl.Token.Parser

/-!
Reading expressions by the power of their operators. An operand is read by the rule for its first
token; after it, operators are taken as long as they bind tighter than the power that the
expression was asked for. Comparisons do not chain.
-/

namespace Spl

open Spl.Parser

def binaryOp? : TokenKind → Option BinaryOp
  | .plus => some .add
  | .dash => some .sub
  | .star => some .mul
  | .slash => some .div
  | .equals => some .equal
  | .notEquals => some .notEqual
  | .less => some .less
  | .lessEquals => some .lessEqual
  | .greater => some .greater
  | .greaterEquals => some .greaterEqual
  | _ => none

/-- An integer literal, whatever token stands there. -/
def intLiteral : Parser Expr := do
  let t ← take
  match Literal.value t with
  | .ok value => return .int value t.span.start none
  | .error halt => throw halt

/-- A name and any number of indices behind it, each read by `inner`. All parts of the variable
have the position of the name. -/
def variableWith (inner : Power → Parser Expr) : Parser Variable := do
  let name ← expect .identifier
  let position := name.span.start
  foldWhile (· == .openBracket)
    (fun array => do
      let _ ← take
      let index ← inner .lowest
      let _ ← expect .closeBracket
      return .element array index position none)
    (.named name.value position none)

/-- Reads an operand by a rule, and the expressions inside it by `inner`. -/
def OperandRule.readWith (inner : Power → Parser Expr) : OperandRule → Parser Expr
  | literal => intLiteral
  | var => do
    let v ← variableWith inner
    return .var v v.position none
  | negation => do
    let op ← take
    return .unary .minus (← inner .unary) op.span.start none
  | group => do
    let _ ← take
    let e ← inner .lowest
    let _ ← expect .closeParen
    return e

/-- Takes an operator of the given power and the operand on its right. -/
def Grammar.binaryWith (g : Grammar) (inner : Power → Parser Expr) (left : Expr) (power : Power) :
    Parser Expr := do
  let t ← take
  match binaryOp? t.kind with
  | none => fail (unexpectedToken t)
  | some op =>
    let right ← inner power
    if power = .relational ∧ g.power (← currentKind) = some .relational then
      misplaced "comparison operators cannot be chained"
    else return .binary op left right t.span.start none

/-- Takes the operator at the current token, with `left` as its left operand. -/
def Grammar.operatorWith (g : Grammar) (inner : Power → Parser Expr) (left : Expr) :
    Parser Expr := do
  let kind ← currentKind
  match g.joins kind, g.power kind with
  | true, some power => g.binaryWith inner left power
  | _, _ => unexpected

/-- Reads an expression with at most `n` expressions nested in one another, up to the first token
that does not bind tighter than `power`. -/
def Grammar.exprWithin (g : Grammar) : Nat → Power → Parser Expr
  | 0, _ => throw (.fault .noProgress)
  | n + 1, power => do
    match g.operand (← currentKind) with
    | none => unexpected
    | some rule =>
      let left ← rule.readWith (g.exprWithin n)
      foldWhile (fun kind => decide (power < g.powerOf kind)) (g.operatorWith (g.exprWithin n)) left

/-- Reads an expression. One inside another starts behind a token at least. -/
def Grammar.expr (g : Grammar) (power : Power) : Parser Expr :=
  fun ts => g.exprWithin (ts.length + 2) power ts

/-- Reads an expression of any operators. -/
def Grammar.anyExpr (g : Grammar) : Parser Expr := g.expr .lowest

def Grammar.place (g : Grammar) : Parser Variable :=
  variableWith g.expr

def OperandRule.read (g : Grammar) (rule : OperandRule) : Parser Expr :=
  rule.readWith g.expr

def Grammar.binary (g : Grammar) (left : Expr) (power : Power) : Parser Expr :=
  g.binaryWith g.expr left power

end Spl
