import Spl.Grammar
import Spl.Token.Literal
import Spl.Token.Parser
import Spl.TypeExpr

/-!
Reading types.
-/

namespace Spl

open Spl.Parser

/-- The size of an array, whatever token stands there. -/
def arraySize : Parser UInt32 := do
  let t ← take
  match Literal.size t with
  | .ok size => return size
  | .error halt => throw halt

/-- Reads a type by a rule, and a type inside it by `inner`. -/
def TypeRule.readWith (inner : Parser TypeExpr) : TypeRule → Parser TypeExpr
  | any => inner
  | named => do
    let name ← expect .identifier
    return .named name.value name.span.start none
  | array => do
    let start ← expect .arrayWord
    let _ ← expect .openBracket
    let size ← arraySize
    let _ ← expect .closeBracket
    let _ ← expect .ofWord
    return .array size (← inner) start.span.start none

/-- Reads a type with at most `n` types nested in one another. -/
def Grammar.typeWithin (g : Grammar) : Nat → Parser TypeExpr
  | 0 => throw (.fault .noProgress)
  | n + 1 => do
    match g.type (← currentKind) with
    | some rule => rule.readWith (g.typeWithin n)
    | none => misplaced "expected a type"

/-- Reads a type. A type inside another one starts behind a token at least. -/
def Grammar.typeExpr (g : Grammar) : Parser TypeExpr :=
  fun ts => g.typeWithin (ts.length + 2) ts

def TypeRule.read (g : Grammar) (rule : TypeRule) : Parser TypeExpr :=
  rule.readWith g.typeExpr

end Spl
