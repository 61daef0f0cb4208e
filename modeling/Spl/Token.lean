import Spl.Position

/-!
Tokens, the smallest parts of a source text that carry meaning.
-/

namespace Spl

inductive TokenKind
  | eof
  | number
  | hexNumber
  | character
  | identifier
  | openBracket
  | closeBracket
  | openCurly
  | closeCurly
  | openParen
  | closeParen
  | assignment
  | equals
  | notEquals
  | less
  | lessEquals
  | greater
  | greaterEquals
  | semicolon
  | colon
  | comma
  | plus
  | dash
  | slash
  | star
  | arrayWord
  | elseWord
  | ifWord
  | ofWord
  | procWord
  | refWord
  | typeWord
  | varWord
  | whileWord
  deriving DecidableEq, Repr

namespace TokenKind

def all : List TokenKind :=
  [eof, number, hexNumber, character, identifier, openBracket, closeBracket, openCurly, closeCurly,
    openParen, closeParen, assignment, equals, notEquals, less, lessEquals, greater, greaterEquals,
    semicolon, colon, comma, plus, dash, slash, star, arrayWord, elseWord,
    ifWord, ofWord, procWord, refWord, typeWord, varWord, whileWord]

theorem mem_all (k : TokenKind) : k ∈ all := by
  cases k <;> decide

/-- What is said of every kind can be decided, one kind after the other. -/
instance {P : TokenKind → Prop} [DecidablePred P] : Decidable (∀ k, P k) :=
  decidable_of_iff (∀ k ∈ all, P k) ⟨fun h k => h k k.mem_all, fun h k _ => h k⟩

/-- The kind as messages name it. -/
def name : TokenKind → String
  | eof => "EOF"
  | number => "Number"
  | hexNumber => "HexNumber"
  | character => "Character"
  | identifier => "Identifier"
  | openBracket => "OpenBracket"
  | closeBracket => "CloseBracket"
  | openCurly => "OpenCurly"
  | closeCurly => "CloseCurly"
  | openParen => "OpenParen"
  | closeParen => "CloseParen"
  | assignment => "Assignment"
  | equals => "Equals"
  | notEquals => "NotEquals"
  | less => "Less"
  | lessEquals => "LessEquals"
  | greater => "Greater"
  | greaterEquals => "GreaterEquals"
  | semicolon => "Semicolon"
  | colon => "Colon"
  | comma => "Comma"
  | plus => "Plus"
  | dash => "Dash"
  | slash => "Slash"
  | star => "Star"
  | arrayWord => "Array"
  | elseWord => "Else"
  | ifWord => "If"
  | ofWord => "Of"
  | procWord => "Proc"
  | refWord => "Ref"
  | typeWord => "Type"
  | varWord => "Var"
  | whileWord => "While"

/-- Whether tokens of this kind differ in their values. -/
def carriesValue : TokenKind → Bool
  | identifier | number | hexNumber | character => true
  | _ => false

end TokenKind

structure Token where
  kind : TokenKind
  value : String
  span : Span
  deriving DecidableEq, Repr

/-- The token as a listing of tokens shows it. -/
def Token.text (t : Token) : String :=
  if t.kind.carriesValue then t.kind.name ++ " (" ++ t.value ++ ")" else t.kind.name

end Spl
