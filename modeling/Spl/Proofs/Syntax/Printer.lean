import Spl.Proofs.Syntax.Standard
import Spl.Proofs.Token.Munch

/-!
Programs as lexemes. An expression is written in parentheses where its place is
of a tighter level than the expression itself, and nowhere else. Every `if` is
written with an `else`, so none is dangling. Integers are written in decimal,
the negative ones as the hexadecimal number that their bits spell.
-/

namespace Spl

/-! ### Expressions -/

namespace Literal

def spell (n : Int32) : String :=
  if 0 ≤ n then String.ofList (Nat.toDigits 10 n.toUInt32.toNat)
  else String.ofList ('0' :: 'x' :: Nat.toDigits 16 n.toUInt32.toNat)

end Literal

def BinaryOp.power : BinaryOp → Power
  | add | sub => .additive
  | mul | div => .multiplicative
  | equal | notEqual | less | lessEqual | greater | greaterEqual => .relational

/-- The level of the left operands of a power. Sums and products go on to the
left, comparisons do not. -/
def Power.leftTier : Power → Tier
  | relational => .sum
  | additive => .sum
  | _ => .product

/-- The level of an expression without parentheses around it. -/
def Expr.tier : Expr → Tier
  | .int _ _ _ => .primary
  | .var _ _ _ => .primary
  | .unary _ _ _ _ => .signed
  | .binary op _ _ _ _ => op.power.result

/-- The lexemes of an expression of one level in a place of another. -/
def Tier.enclose (own place : Tier) (lexemes : List String) : List String :=
  if own.rank < place.rank then "(" :: (lexemes ++ [")"]) else lexemes

mutual

def Expr.lexemes (place : Tier) : Expr → List String
  | .int n _ _ => [Literal.spell n]
  | .var v _ _ => v.lexemes
  | .unary op operand _ _ => Tier.signed.enclose place (op.text :: operand.lexemes .signed)
  | .binary op left right _ _ =>
    op.power.result.enclose place
      (left.lexemes op.power.leftTier ++ op.text :: right.lexemes op.power.tier)

def Variable.lexemes : Variable → List String
  | .named name _ _ => [name]
  | .element array index _ _ => array.lexemes ++ "[" :: (index.lexemes .comparison ++ ["]"])

end

/-! ### Statements -/

/-- Lists of lexemes with commas between them. -/
def commaSeparated : List (List String) → List String
  | [] => []
  | first :: others => first ++ others.flatMap ("," :: ·)

namespace Stmt

mutual

def lexemes : Stmt → List String
  | empty _ => [";"]
  | compound body _ => "\x7b" :: (lexemesOfAll body ++ ["\x7d"])
  | assign target value _ => target.lexemes ++ ":=" :: (value.lexemes .comparison ++ [";"])
  | call procedure arguments _ =>
    procedure :: "(" :: (commaSeparated (arguments.map (Expr.lexemes .comparison)) ++ [")", ";"])
  | conditional condition thenBranch elseBranch _ =>
    "if" :: "(" :: (condition.lexemes .comparison ++
      ")" :: (thenBranch.lexemes ++ "else" :: elseBranch.lexemes))
  | loop condition body _ =>
    "while" :: "(" :: (condition.lexemes .comparison ++ ")" :: body.lexemes)

def lexemesOfAll : List Stmt → List String
  | [] => []
  | s :: ss => s.lexemes ++ lexemesOfAll ss

end

end Stmt

/-! ### Declarations -/

def TypeExpr.lexemes : TypeExpr → List String
  | .named name _ _ => [name]
  | .array size element _ _ =>
    "array" :: "[" :: Literal.spell size.toInt32 :: "]" :: "of" :: element.lexemes

def TypeDeclaration.lexemes (d : TypeDeclaration) : List String :=
  "type" :: d.name :: "=" :: (d.type.lexemes ++ [";"])

def Parameter.lexemes (p : Parameter) : List String :=
  (if p.byReference then ["ref"] else []) ++ p.name :: ":" :: p.type.lexemes

def LocalVariable.lexemes (v : LocalVariable) : List String :=
  "var" :: v.name :: ":" :: (v.type.lexemes ++ [";"])

def Procedure.lexemes (p : Procedure) : List String :=
  "proc" :: p.name :: "(" :: (commaSeparated (p.parameters.map Parameter.lexemes) ++ ")" ::
    "\x7b" :: (p.locals.flatMap LocalVariable.lexemes ++
      (Stmt.lexemesOfAll p.body ++ ["\x7d"])))

def Declaration.lexemes : Declaration → List String
  | type d => d.lexemes
  | procedure p => p.lexemes

def Program.lexemes (p : Program) : List String :=
  p.declarations.flatMap Declaration.lexemes

/-! ### Programs that can be written

Names have to be words that are not reserved, and the sizes of arrays have to be
integers of the language. -/

/-- A word that can be a name. -/
structure Nameable (name : String) : Prop where
  word : Pattern.word.Matches name.toList
  free : ∀ entry ∈ reservedWords, entry.1 ≠ name

instance (name : String) : Decidable (Nameable name) :=
  decidable_of_iff (Pattern.word.match? name.toList = some name.toList ∧
      ∀ entry ∈ reservedWords, entry.1 ≠ name) <| by
    refine ⟨fun h => ⟨Pattern.matches_of_match? (by decide) h.1, h.2⟩, fun h => ⟨?_, h.free⟩⟩
    obtain ⟨found, hfound, hle⟩ := Pattern.exists_match?_of_matches h.word List.prefix_rfl
    rw [hfound, (Pattern.prefix_of_match? hfound).eq_of_length_le hle]

def TypeExpr.Writable : TypeExpr → Prop
  | .named name _ _ => Nameable name
  | .array size element _ _ => size.toNat < 2 ^ 31 ∧ element.Writable

mutual

def Expr.Writable : Expr → Prop
  | .int _ _ _ => True
  | .var v _ _ => v.Writable
  | .unary _ operand _ _ => operand.Writable
  | .binary _ left right _ _ => left.Writable ∧ right.Writable

def Variable.Writable : Variable → Prop
  | .named name _ _ => Nameable name
  | .element array index _ _ => array.Writable ∧ index.Writable

end

namespace Stmt

mutual

def Writable : Stmt → Prop
  | empty _ => True
  | compound body _ => AllWritable body
  | assign target value _ => target.Writable ∧ value.Writable
  | call procedure arguments _ => Nameable procedure ∧ ∀ e ∈ arguments, e.Writable
  | conditional condition thenBranch elseBranch _ =>
    condition.Writable ∧ thenBranch.Writable ∧ elseBranch.Writable
  | loop condition body _ => condition.Writable ∧ body.Writable

def AllWritable : List Stmt → Prop
  | [] => True
  | s :: ss => s.Writable ∧ AllWritable ss

end

end Stmt

structure Procedure.Writable (p : Procedure) : Prop where
  name : Nameable p.name
  parameters : ∀ q ∈ p.parameters, Nameable q.name ∧ q.type.Writable
  locals : ∀ v ∈ p.locals, Nameable v.name ∧ v.type.Writable
  body : Stmt.AllWritable p.body

def Declaration.Writable : Declaration → Prop
  | type d => Nameable d.name ∧ d.type.Writable
  | procedure p => p.Writable

def Program.Writable (p : Program) : Prop :=
  ∀ d ∈ p.declarations, d.Writable

/-! ### Programs without positions and types -/

def TypeExpr.bare : TypeExpr → TypeExpr
  | .named name _ _ => .named name .null none
  | .array size element _ _ => .array size element.bare .null none

mutual

def Expr.bare : Expr → Expr
  | .int n _ _ => .int n .null none
  | .var v _ _ => .var v.bare .null none
  | .unary op operand _ _ => .unary op operand.bare .null none
  | .binary op left right _ _ => .binary op left.bare right.bare .null none

def Variable.bare : Variable → Variable
  | .named name _ _ => .named name .null none
  | .element array index _ _ => .element array.bare index.bare .null none

end

namespace Stmt

mutual

def bare : Stmt → Stmt
  | empty _ => empty .null
  | compound body _ => compound (bareAll body) .null
  | assign target value _ => assign target.bare value.bare .null
  | call procedure arguments _ => call procedure (arguments.map Expr.bare) .null
  | conditional condition thenBranch elseBranch _ =>
    conditional condition.bare thenBranch.bare elseBranch.bare .null
  | loop condition body _ => loop condition.bare body.bare .null

def bareAll : List Stmt → List Stmt
  | [] => []
  | s :: ss => s.bare :: bareAll ss

end

end Stmt

def Parameter.bare (p : Parameter) : Parameter :=
  { p with type := p.type.bare, position := .null }

def LocalVariable.bare (v : LocalVariable) : LocalVariable :=
  { v with type := v.type.bare, position := .null }

def Declaration.bare : Declaration → Declaration
  | type d => type { d with type := d.type.bare, position := .null }
  | procedure p => procedure ⟨p.name, p.parameters.map .bare, p.locals.map .bare,
      Stmt.bareAll p.body, .null⟩

def Program.bare (p : Program) : Program :=
  ⟨p.declarations.map Declaration.bare, ⟨.null, .null⟩⟩

end Spl
