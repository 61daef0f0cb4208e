import Spl.Halt
import Spl.Token.Lexeme

/-!
Source texts as lists of tokens. A lexer holds a byte offset into its source, and reads what
follows by a cut there. `tokenize` starts at offset zero and moves by whole lexemes.
-/

namespace Spl

structure Lexer where
  source : List Char
  offset : Nat
  file : String
  deriving DecidableEq, Repr

namespace Lexer

/-- A lexer at the beginning of a source. Text that belongs to no file comes from the shell. -/
def ofSource (source : String) (file : Option String) : Lexer :=
  ⟨source.toList, 0, file.getD "shell"⟩

/-- The lexer `n` bytes further on, wherever that is. -/
def skip (lexer : Lexer) (n : Nat) : Except Fault Lexer :=
  (Count.add lexer.offset n).map fun offset => { lexer with offset }

theorem skip_of_lt {lexer : Lexer} {n : Nat} (h : lexer.offset + n < Count.limit) :
    lexer.skip n = .ok { lexer with offset := lexer.offset + n } := by
  simp [skip, h, Except.map]

def atEnd (lexer : Lexer) : Bool :=
  Text.byteLength lexer.source ≤ lexer.offset

def rest (lexer : Lexer) : Except Fault (List Char) :=
  match Text.dropBytes? lexer.offset lexer.source with
  | some cs => .ok cs
  | none => .error .badSlice

/-- The next character, or the null character at the end. -/
def current (lexer : Lexer) : Except Fault Char :=
  lexer.rest.map fun cs => cs.headD '\x00'

/-- Behind a whole part of its source, a lexer reads the other part. -/
@[simp] theorem rest_append (cs ds : List Char) (file : String) :
    rest ⟨cs ++ ds, Text.byteLength cs, file⟩ = .ok ds := by
  simp [rest]

def positionAt (lexer : Lexer) (offset : Nat) : Position :=
  ⟨UInt32.ofNat offset, lexer.file⟩

def position (lexer : Lexer) : Position :=
  lexer.positionAt lexer.offset

/-- The span of the next `n` bytes. -/
def spanOfNext (lexer : Lexer) (n : Nat) : Except Fault Span :=
  (Count.add lexer.offset n).map fun stop => ⟨lexer.position, lexer.positionAt stop⟩

theorem spanOfNext_of_lt {lexer : Lexer} {n : Nat} (h : lexer.offset + n < Count.limit) :
    lexer.spanOfNext n = .ok ⟨lexer.position, lexer.positionAt (lexer.offset + n)⟩ := by
  simp [spanOfNext, h, Except.map]

/-- The token of the next lexeme, if it stands for one, and the lexer behind the lexeme. -/
def next (lexer : Lexer) : Except Halt (Option Token × Lexer) := do
  let cs ← lexer.rest.mapError .fault
  match Pattern.first? cs with
  | none =>
    let c ← lexer.current.mapError .fault
    throw (Cause.halt (.unrecognisedToken c.toString) lexer.position)
  | some (pattern, lexeme) =>
    let length := Text.byteLength lexeme
    let written ← (pattern.tokenOf lexeme).mapError .fault
    let span ← (lexer.spanOfNext length).mapError .fault
    let token := written.map fun (kind, value) => ⟨kind, value, span⟩
    return (token, ← (lexer.skip length).mapError .fault)

/-- The tokens from here to the end of the source, in at most `n` steps. -/
def tokensWithin : Nat → Lexer → Except Halt (List Token)
  | 0, _ => throw (.fault .noProgress)
  | n + 1, lexer =>
    if lexer.atEnd then do
      return [⟨.eof, "EOF", ← (lexer.spanOfNext 0).mapError .fault⟩]
    else do
      let (token, lexer) ← lexer.next
      return token.toList ++ (← tokensWithin n lexer)

/-- Every lexeme has a byte at least, so a step per byte suffices. -/
def tokens (lexer : Lexer) : Except Halt (List Token) :=
  lexer.tokensWithin (Text.byteLength lexer.source + 1)

end Lexer

/-- The tokens of a source text, the last of which marks its end. -/
def tokenize (source : String) (file : Option String) : Except Halt (List Token) :=
  (Lexer.ofSource source file).tokens

end Spl
