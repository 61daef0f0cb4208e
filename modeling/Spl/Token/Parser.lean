import Spl.Halt
import Spl.Token

/-!
Reading from a list of tokens. A parser works on the tokens that are left, the first of which is
the current one. The last token is never used up: it stays current however often it is taken, so a
list that ends with the end of the source keeps ending there. Only a list without tokens at all has
no current one.
-/

namespace Spl

abbrev Parser (α : Type) := EStateM Halt (List Token) α

namespace Parser

variable {α β : Type}

def current : Parser Token
  | [] => .error (.fault .noToken) []
  | t :: ts => .ok t (t :: ts)

def currentKind : Parser TokenKind := do
  return (← current).kind

/-- The kind of the token after the current one. -/
def peekKind : Parser TokenKind
  | t :: u :: ts => .ok u.kind (t :: u :: ts)
  | ts => .ok .eof ts

/-- Takes the current token. -/
def take : Parser Token
  | [] => .error (.fault .noToken) []
  | [t] => .ok t [t]
  | t :: u :: ts => .ok t (u :: ts)

@[simp] theorem current_cons (t : Token) (ts : List Token) :
    current (t :: ts) = .ok t (t :: ts) := rfl

@[simp] theorem currentKind_cons (t : Token) (ts : List Token) :
    currentKind (t :: ts) = .ok t.kind (t :: ts) := rfl

@[simp] theorem peekKind_cons_cons (t u : Token) (ts : List Token) :
    peekKind (t :: u :: ts) = .ok u.kind (t :: u :: ts) := rfl

@[simp] theorem take_singleton (t : Token) : take [t] = .ok t [t] := rfl

@[simp] theorem take_cons_cons (t u : Token) (ts : List Token) :
    take (t :: u :: ts) = .ok t (u :: ts) := rfl

def unfinished : Parser Bool := do
  return (← currentKind) != .eof

def position : Parser Position := do
  return (← current).span.start

/-- The complaint about a token that nothing can start with or go on with. -/
def unexpectedToken (t : Token) : Diagnostic :=
  ⟨.unexpectedToken t.value, t.span.start⟩

/-- The complaint about a token where `message` is all that could stand. -/
def misplacedToken (t : Token) (message : String) : Diagnostic :=
  ⟨.unexpectedTokenDetailed t.value message, t.span.start⟩

def fail (d : Diagnostic) : Parser α :=
  throw (.diagnostic d)

def unexpected : Parser α := do
  fail (unexpectedToken (← current))

def misplaced (message : String) : Parser α := do
  fail (misplacedToken (← current) message)

/-- Takes a token of the given kind, and fails with `complaint` on any other. -/
def expectOr (kind : TokenKind) (complaint : Token → Diagnostic) : Parser Token := do
  let t ← current
  if t.kind = kind then take else fail (complaint t)

def expect (kind : TokenKind) : Parser Token :=
  expectOr kind fun t => misplacedToken t ("expected " ++ kind.name)

theorem expectOr_of_kind (complaint : Token → Diagnostic) (t : Token) (ts : List Token) :
    expectOr t.kind complaint (t :: ts) = take (t :: ts) := by
  simp [expectOr, bind, EStateM.bind]

theorem expectOr_of_ne {kind : TokenKind} {t : Token} (h : t.kind ≠ kind)
    (complaint : Token → Diagnostic) (ts : List Token) :
    expectOr kind complaint (t :: ts) = .error (.diagnostic (complaint t)) (t :: ts) := by
  simp only [expectOr, bind, EStateM.bind, current_cons, if_neg h]
  rfl

/-! Repetition. A loop that takes a token each time ends within as many rounds as there are tokens,
and one that does not would never end; so rounds are counted by the tokens at its start. -/

def foldWithin (more : TokenKind → Bool) (step : α → Parser α) : Nat → α → Parser α
  | 0, _ => throw (.fault .noProgress)
  | n + 1, a => do
    if more (← currentKind) then foldWithin more step n (← step a) else return a

/-- Repeats `step` while the current token is one that `more` accepts. -/
def foldWhile (more : TokenKind → Bool) (step : α → Parser α) (a : α) : Parser α :=
  fun ts => foldWithin more step (ts.length + 1) a ts

def collectWithin (more : TokenKind → Bool) (item : Parser α) : Nat → Parser (List α)
  | 0 => throw (.fault .noProgress)
  | n + 1 => do
    if more (← currentKind) then
      let x ← item
      return x :: (← collectWithin more item n)
    else return []

/-- Reads items while the current token is one that `more` accepts. -/
def collectWhile (more : TokenKind → Bool) (item : Parser α) : Parser (List α) :=
  fun ts => collectWithin more item (ts.length + 1) ts

/-- Items with commas between them, up to a closing parenthesis. -/
def parenthesised (item : Parser α) : Parser (List α) := do
  if (← currentKind) = .closeParen then return []
  else
    let first ← item
    let others ← collectWhile (· == .comma) do
      let _ ← take
      item
    return first :: others

/-- Items up to a closing brace, and the brace. -/
def braced (item : Parser α) : Parser (List α) := do
  let items ← collectWhile (· != .closeCurly) do
    if ← unfinished then item else unexpected
  let _ ← expect .closeCurly
  return items

end Parser

end Spl
