import Spl.Declaration
import Spl.Stmt.Parser
import Spl.TypeExpr.Parser

/-!
Reading declarations.
-/

namespace Spl

open Spl.Parser

def Grammar.typeDeclaration (g : Grammar) : Parser TypeDeclaration := do
  let start ← expect .typeWord
  let name ← expect .identifier
  let _ ← expect .equals
  let type ← g.typeExpr
  let _ ← expect .semicolon
  return ⟨name.value, type, start.span.start⟩

def Grammar.parameter (g : Grammar) : Parser Parameter := do
  let byReference := (← currentKind) == .refWord
  if byReference then
    let _ ← take
  let name ← expect .identifier
  let _ ← expect .colon
  let type ← g.typeExpr
  return ⟨name.value, type, byReference, name.span.start⟩

def Grammar.localVariable (g : Grammar) : Parser LocalVariable := do
  let _ ← expect .varWord
  let name ← expect .identifier
  let _ ← expect .colon
  let type ← g.typeExpr
  let _ ← expect .semicolon
  return ⟨name.value, type, name.span.start⟩

/-- A procedure declares all its variables before its first statement. -/
def Grammar.procedure (g : Grammar) : Parser Procedure := do
  let _ ← expect .procWord
  let name ← expect .identifier
  let _ ← expect .openParen
  let parameters ← parenthesised g.parameter
  let _ ← expect .closeParen
  let _ ← expect .openCurly
  let locals ← collectWhile (· == .varWord) g.localVariable
  let body ← braced g.stmt
  return ⟨name.value, parameters, locals, body, name.span.start⟩

def Grammar.declaration (g : Grammar) : Parser Declaration := do
  match ← currentKind with
  | .typeWord => return .type (← g.typeDeclaration)
  | .procWord => return .procedure (← g.procedure)
  | _ => misplaced "expected a type or procedure declaration"

end Spl
