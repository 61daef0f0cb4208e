import Spl.Token

/-!
Grammars as tables. A table says for a kind of token by which rule a statement, an operand or a
type that starts with it is read, and how tightly it binds as an operator. `Grammar.standard` is
the grammar of the language; other tables can be made from it or from the empty one.
-/

namespace Spl

/-- How tightly an operator binds its operands, from the loosest to the tightest. -/
inductive Power
  | lowest
  | relational
  | additive
  | multiplicative
  | unary
  | primary
  deriving DecidableEq, Repr

namespace Power

def rank : Power → Nat
  | lowest => 0
  | relational => 1
  | additive => 2
  | multiplicative => 3
  | unary => 4
  | primary => 5

instance : LT Power := ⟨fun p q => p.rank < q.rank⟩

instance (p q : Power) : Decidable (p < q) :=
  inferInstanceAs (Decidable (p.rank < q.rank))

end Power

/-- The rules for operands. -/
inductive OperandRule
  | literal
  | var
  | negation
  | group
  deriving DecidableEq, Repr

/-- The rules for statements. The rule `any` leaves the choice to the table. -/
inductive StmtRule
  | any
  | empty
  | compound
  | conditional
  | loop
  | callOrAssign
  | call
  | assign
  deriving DecidableEq, Repr

/-- The rules for types. The rule `any` leaves the choice to the table. -/
inductive TypeRule
  | any
  | named
  | array
  deriving DecidableEq, Repr

structure Grammar where
  statement : TokenKind → Option StmtRule
  operand : TokenKind → Option OperandRule
  /-- Whether a token joins two operands. -/
  joins : TokenKind → Bool
  power : TokenKind → Option Power
  type : TokenKind → Option TypeRule

namespace Grammar

def empty : Grammar where
  statement _ := none
  operand _ := none
  joins _ := false
  power _ := none
  type _ := none

/-- `table` with a new entry for one kind of token. -/
def assign {α : Type} (table : TokenKind → α) (kind : TokenKind) (entry : α) : TokenKind → α :=
  fun k => if k = kind then entry else table k

@[simp] theorem assign_self {α : Type} (table : TokenKind → α) (kind : TokenKind) (entry : α) :
    assign table kind entry kind = entry := by
  simp [assign]

theorem assign_of_ne {α : Type} (table : TokenKind → α) {kind k : TokenKind} (h : k ≠ kind)
    (entry : α) : assign table kind entry k = table k := by
  simp [assign, h]

def withStatement (g : Grammar) (kind : TokenKind) (rule : StmtRule) : Grammar :=
  { g with statement := assign g.statement kind (some rule) }

/-- A token keeps its power as an operator when it starts operands too. -/
def withOperand (g : Grammar) (kind : TokenKind) (rule : OperandRule) : Grammar :=
  { g with operand := assign g.operand kind (some rule) }

def withOperator (g : Grammar) (kind : TokenKind) (power : Power) : Grammar :=
  { g with joins := assign g.joins kind true, power := assign g.power kind (some power) }

def withType (g : Grammar) (kind : TokenKind) (rule : TypeRule) : Grammar :=
  { g with type := assign g.type kind (some rule) }

/-- The power of a token behind an operand; one that is no operator does not bind at all. -/
def powerOf (g : Grammar) (kind : TokenKind) : Power :=
  (g.power kind).getD .lowest

def standard : Grammar :=
  empty
    |>.withOperator .less .relational
    |>.withOperator .lessEquals .relational
    |>.withOperator .greater .relational
    |>.withOperator .greaterEquals .relational
    |>.withOperator .equals .relational
    |>.withOperator .notEquals .relational
    |>.withOperator .plus .additive
    |>.withOperator .dash .additive
    |>.withOperator .star .multiplicative
    |>.withOperator .slash .multiplicative
    |>.withOperand .number .literal
    |>.withOperand .hexNumber .literal
    |>.withOperand .character .literal
    |>.withOperand .identifier .var
    |>.withOperand .dash .negation
    |>.withOperand .openParen .group
    |>.withStatement .semicolon .empty
    |>.withStatement .openCurly .compound
    |>.withStatement .ifWord .conditional
    |>.withStatement .whileWord .loop
    |>.withStatement .identifier .callOrAssign
    |>.withType .identifier .named
    |>.withType .arrayWord .array

end Grammar

end Spl
