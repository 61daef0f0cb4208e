import Spl.Fault
import Spl.Text.Blank
import Spl.Text.Bytes
import Spl.Token

/-!
The written forms of tokens, of white space and of comments. A source text is read by the first
pattern of `Pattern.table` that matches, so a longer mark stands before its own beginning and a
comment before the slash.
-/

namespace Spl

def isWordStart (c : Char) : Bool := c.isAlpha || c == '_'

def isWordChar (c : Char) : Bool := isWordStart c || c.isDigit

def isHexDigit (c : Char) : Bool :=
  c.isDigit || ('a' ≤ c && c ≤ 'f') || ('A' ≤ c && c ≤ 'F')

/-- The words that cannot be names. -/
def reservedWords : List (String × TokenKind) :=
  [("array", .arrayWord), ("else", .elseWord), ("if", .ifWord), ("of", .ofWord),
    ("proc", .procWord), ("ref", .refWord), ("type", .typeWord), ("var", .varWord),
    ("while", .whileWord)]

inductive Pattern
  | word
  | hexadecimal
  | decimal
  | quotedCharacter
  | blanks
  | comment
  | mark (form : List Char) (kind : TokenKind)
  deriving DecidableEq, Repr

namespace Pattern

def table : List Pattern :=
  [word, hexadecimal, decimal, quotedCharacter, blanks, comment,
    mark ['['] .openBracket, mark [']'] .closeBracket,
    mark ['\x7b'] .openCurly, mark ['\x7d'] .closeCurly,
    mark ['('] .openParen, mark [')'] .closeParen,
    mark [':', '='] .assignment, mark [':'] .colon, mark ['='] .equals, mark ['#'] .notEquals,
    mark ['<', '='] .lessEquals, mark ['<'] .less,
    mark ['>', '='] .greaterEquals, mark ['>'] .greater,
    mark [';'] .semicolon, mark [','] .comma,
    mark ['+'] .plus, mark ['-'] .dash, mark ['*'] .star, mark ['/'] .slash]

/-- A lexeme is not empty. -/
def nonempty : List Char → Option (List Char)
  | [] => none
  | lexeme => some lexeme

/-- The lexeme of this pattern that a text starts with. Words, numbers, white space and comments
reach as far as they can. -/
def match? : Pattern → List Char → Option (List Char)
  | word, c :: cs => if isWordStart c then some (c :: cs.takeWhile isWordChar) else none
  | hexadecimal, '0' :: x :: cs =>
    if x = 'x' ∨ x = 'X' then
      (nonempty (cs.takeWhile isHexDigit)).map fun digits => '0' :: x :: digits
    else none
  | decimal, cs => nonempty (cs.takeWhile Char.isDigit)
  | quotedCharacter, '\'' :: '\\' :: 'n' :: '\'' :: _ => some ['\'', '\\', 'n', '\'']
  | quotedCharacter, '\'' :: c :: '\'' :: _ =>
    if c = '\'' ∨ c = '\\' then none else some ['\'', c, '\'']
  | blanks, cs => nonempty (cs.takeWhile Text.isBlank)
  | comment, '/' :: '/' :: cs => some ('/' :: '/' :: cs.takeWhile (· ≠ '\n'))
  | mark form _, cs => if form.isPrefixOf cs then some form else none
  | _, _ => none

theorem nonempty_eq_some_iff {cs lexeme : List Char} :
    nonempty cs = some lexeme ↔ cs = lexeme ∧ lexeme ≠ [] := by
  cases cs with
  | nil => simp +contextual [nonempty, eq_comm]
  | cons c cs => simp +contextual [nonempty, eq_comm]

/-- A text starts with every lexeme that is found there. -/
theorem prefix_of_match? {p : Pattern} {cs lexeme : List Char} (h : p.match? cs = some lexeme) :
    lexeme <+: cs := by
  unfold match? at h
  split at h
  · split at h
    · obtain rfl := Option.some.inj h
      simpa using List.takeWhile_prefix _
    · cases h
  · split at h
    · obtain ⟨digits, hd, rfl⟩ := Option.map_eq_some_iff.1 h
      obtain rfl := (nonempty_eq_some_iff.1 hd).1
      simpa using List.takeWhile_prefix _
    · cases h
  · obtain rfl := (nonempty_eq_some_iff.1 h).1
    exact List.takeWhile_prefix _
  · obtain rfl := Option.some.inj h
    simp
  · split at h
    · cases h
    · obtain rfl := Option.some.inj h
      simp
  · obtain rfl := (nonempty_eq_some_iff.1 h).1
    exact List.takeWhile_prefix _
  · obtain rfl := Option.some.inj h
    simpa using List.takeWhile_prefix _
  · split at h
    · next hp =>
      obtain rfl := Option.some.inj h
      exact List.isPrefixOf_iff_prefix.1 hp
    · cases h
  · cases h

/-- What stands between the quotes of a character. -/
def unquote (lexeme : List Char) : Except Fault (List Char) :=
  match (Text.dropBytes? 1 lexeme).bind (Text.takeBytes? (Text.byteLength lexeme - 2)) with
  | some inner => .ok inner
  | none => .error .badSlice

/-- The kind and value of the token that a lexeme of this pattern stands for; white space and
comments stand for none. -/
def tokenOf : Pattern → List Char → Except Fault (Option (TokenKind × String))
  | word, lexeme =>
    let value := String.ofList lexeme
    .ok (some ((reservedWords.lookup value).getD .identifier, value))
  | hexadecimal, lexeme => .ok (some (.hexNumber, String.ofList lexeme))
  | decimal, lexeme => .ok (some (.number, String.ofList lexeme))
  | quotedCharacter, lexeme =>
    (unquote lexeme).map fun inner => some (.character, String.ofList inner)
  | blanks, _ => .ok none
  | comment, _ => .ok none
  | mark form kind, _ => .ok (some (kind, String.ofList form))

/-- The first pattern of the table that a text starts with, and its lexeme. -/
def first? (cs : List Char) : Option (Pattern × List Char) :=
  table.findSome? fun p => (p.match? cs).map fun lexeme => (p, lexeme)

end Pattern

end Spl
