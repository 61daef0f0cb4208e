import Spl.Program
import Spl.Proofs.Token.Literal

/-!
The grammar of the language. A phrase is derived from the list of exactly the
tokens that it is written with. The rules say nothing about how tokens are
read: they have no tables, no powers of operators and no look ahead.

The one choice that the rules leave open is the `if` that an `else` belongs
to, so there are two versions of the grammar. In one of them each `else` may
belong to any `if` in front of it that has none. In the other one it belongs
to the nearest.
-/

namespace Spl

/-! ### Lists of phrases -/

section Lists

variable {α : Type}

/-- Phrases one after another. -/
inductive Sequence (D : List Token → α → Prop) : List Token → List α → Prop
  | nil : Sequence D [] []
  | cons {ts us : List Token} {x : α} {xs : List α} (head : D ts x) (tail : Sequence D us xs) :
      Sequence D (ts ++ us) (x :: xs)

/-- `, phrase` -/
inductive AfterComma (D : List Token → α → Prop) : List Token → α → Prop
  | intro {comma : Token} {ts : List Token} {x : α} (mark : comma.kind = .comma) (h : D ts x) :
      AfterComma D (comma :: ts) x

theorem AfterComma.ne_nil {D : List Token → α → Prop} {ts : List Token} {x : α}
    (h : AfterComma D ts x) : ts ≠ [] := by
  cases h
  exact List.cons_ne_nil _ _

/-- `[phrase {, phrase}]` -/
inductive Separated (D : List Token → α → Prop) : List Token → List α → Prop
  | none : Separated D [] []
  | some {ts us : List Token} {x : α} {xs : List α} (first : D ts x)
      (others : Sequence (AfterComma D) us xs) : Separated D (ts ++ us) (x :: xs)

end Lists

/-! ### Types -/

/-- `name` and `array [size] of type` -/
inductive TypeExpr.Derives : List Token → TypeExpr → Prop
  | named {name : Token} (kind : name.kind = .identifier) :
      Derives [name] (.named name.value name.span.start none)
  | array {start opened size closed mark : Token} {ts : List Token} {n : Int32} {e : TypeExpr}
      (hstart : start.kind = .arrayWord) (hopened : opened.kind = .openBracket)
      (hsize : size.Denotes n) (hsign : 0 ≤ n) (hclosed : closed.kind = .closeBracket)
      (hmark : mark.kind = .ofWord) (element : Derives ts e) :
      Derives (start :: opened :: size :: closed :: mark :: ts)
        (.array n.toUInt32 e start.span.start none)

theorem TypeExpr.Derives.ne_nil {ts : List Token} {e : TypeExpr} (h : e.Derives ts) : ts ≠ [] := by
  cases h <;> exact List.cons_ne_nil _ _

/-! ### Expressions -/

/-- The levels of expressions. One level is made of operands of the next. -/
inductive Tier
  | comparison
  | sum
  | product
  | signed
  | primary
  deriving DecidableEq

namespace Tier

def comparisons : List (TokenKind × BinaryOp) :=
  [(.equals, .equal), (.notEquals, .notEqual), (.less, .less), (.lessEquals, .lessEqual),
    (.greater, .greater), (.greaterEquals, .greaterEqual)]

def additions : List (TokenKind × BinaryOp) := [(.plus, .add), (.dash, .sub)]

def multiplications : List (TokenKind × BinaryOp) := [(.star, .mul), (.slash, .div)]

end Tier

inductive ExprPhrase
  | expr (tier : Tier) (e : Expr)
  | place (v : Variable)

/-- A binary expression has the position of its operator, a negation that of
its sign, a variable that of its name, and parentheses leave no trace. -/
inductive ExprPhrase.Derives : List Token → ExprPhrase → Prop
  | comparison {ts us : List Token} {mark : Token} {op : BinaryOp} {left right : Expr}
      (hleft : Derives ts (.expr .sum left)) (hop : (mark.kind, op) ∈ Tier.comparisons)
      (hright : Derives us (.expr .sum right)) :
      Derives (ts ++ mark :: us) (.expr .comparison (.binary op left right mark.span.start none))
  | ofSum {ts : List Token} {e : Expr} (h : Derives ts (.expr .sum e)) :
      Derives ts (.expr .comparison e)
  | sum {ts us : List Token} {mark : Token} {op : BinaryOp} {left right : Expr}
      (hleft : Derives ts (.expr .sum left)) (hop : (mark.kind, op) ∈ Tier.additions)
      (hright : Derives us (.expr .product right)) :
      Derives (ts ++ mark :: us) (.expr .sum (.binary op left right mark.span.start none))
  | ofProduct {ts : List Token} {e : Expr} (h : Derives ts (.expr .product e)) :
      Derives ts (.expr .sum e)
  | product {ts us : List Token} {mark : Token} {op : BinaryOp} {left right : Expr}
      (hleft : Derives ts (.expr .product left)) (hop : (mark.kind, op) ∈ Tier.multiplications)
      (hright : Derives us (.expr .signed right)) :
      Derives (ts ++ mark :: us) (.expr .product (.binary op left right mark.span.start none))
  | ofSigned {ts : List Token} {e : Expr} (h : Derives ts (.expr .signed e)) :
      Derives ts (.expr .product e)
  | negation {sign : Token} {ts : List Token} {e : Expr} (hsign : sign.kind = .dash)
      (h : Derives ts (.expr .signed e)) :
      Derives (sign :: ts) (.expr .signed (.unary .minus e sign.span.start none))
  | ofPrimary {ts : List Token} {e : Expr} (h : Derives ts (.expr .primary e)) :
      Derives ts (.expr .signed e)
  | literal {t : Token} {n : Int32} (h : t.Denotes n) :
      Derives [t] (.expr .primary (.int n t.span.start none))
  | read {ts : List Token} {v : Variable} (h : Derives ts (.place v)) :
      Derives ts (.expr .primary (.var v v.position none))
  | group {opened closed : Token} {ts : List Token} {e : Expr} (hopened : opened.kind = .openParen)
      (h : Derives ts (.expr .comparison e)) (hclosed : closed.kind = .closeParen) :
      Derives (opened :: (ts ++ [closed])) (.expr .primary e)
  | named {name : Token} (hname : name.kind = .identifier) :
      Derives [name] (.place (.named name.value name.span.start none))
  | element {ts us : List Token} {opened closed : Token} {array : Variable} {index : Expr}
      (harray : Derives ts (.place array)) (hopened : opened.kind = .openBracket)
      (hindex : Derives us (.expr .comparison index)) (hclosed : closed.kind = .closeBracket) :
      Derives (ts ++ opened :: (us ++ [closed])) (.place (.element array index array.position none))

/-- A variable starts with its name, and goes on with an index if at all. -/
theorem ExprPhrase.Derives.exists_name {ts : List Token} {v : Variable}
    (h : Derives ts (.place v)) :
    ∃ name us, ts = name :: us ∧ name.kind = .identifier ∧
      ∀ u vs, us = u :: vs → u.kind = .openBracket := by
  generalize hphrase : ExprPhrase.place v = phrase at h
  induction h generalizing v with
  | named hname => exact ⟨_, [], rfl, hname, by simp⟩
  | element _ hopened _ _ iharray _ =>
      obtain ⟨name, us, rfl, hname, hus⟩ := iharray rfl
      refine ⟨name, _, rfl, hname, ?_⟩
      cases us with
      | nil =>
          rintro u vs ⟨⟩
          exact hopened
      | cons u us =>
          rintro u vs ⟨⟩
          exact hus _ _ rfl
  | _ => cases hphrase

def Expr.Derives (ts : List Token) (e : Expr) : Prop :=
  ExprPhrase.Derives ts (.expr .comparison e)

def Variable.Derives (ts : List Token) (v : Variable) : Prop :=
  ExprPhrase.Derives ts (.place v)

theorem Variable.Derives.ne_nil {ts : List Token} {v : Variable} (h : v.Derives ts) : ts ≠ [] := by
  obtain ⟨name, us, rfl, -, -⟩ := ExprPhrase.Derives.exists_name h
  exact List.cons_ne_nil _ _

/-! ### Statements -/

/-- Which `if` an `else` belongs to. -/
inductive ElseRule
  | any
  | nearest
  deriving DecidableEq

/-- The position of the first of some tokens, in front of `next`. -/
def startOf (next : Position) : List Token → Position
  | [] => next
  | t :: _ => t.span.start

theorem startOf_append (next : Position) (ts us : List Token) :
    startOf next (ts ++ us) = startOf (startOf next us) ts := by
  cases ts <;> rfl

/-- A statement is dangling if it ends with an `if` that an `else` could be
added to. -/
inductive StmtPhrase
  | stmt (s : Stmt) (dangling : Bool)
  | stmts (ss : List Stmt)

/-- A phrase that stands in front of the position `next`. That is where an
`else` branch is that is not written. -/
inductive StmtPhrase.Derives (rule : ElseRule) : Position → List Token → StmtPhrase → Prop
  | empty {next : Position} {t : Token} (h : t.kind = .semicolon) :
      Derives rule next [t] (.stmt (.empty t.span.start) false)
  | compound {next : Position} {opened closed : Token} {ts : List Token} {ss : List Stmt}
      (hopened : opened.kind = .openCurly) (h : Derives rule closed.span.start ts (.stmts ss))
      (hclosed : closed.kind = .closeCurly) :
      Derives rule next (opened :: (ts ++ [closed])) (.stmt (.compound ss opened.span.start) false)
  | assign {next : Position} {mark closed : Token} {ts us : List Token} {v : Variable} {e : Expr}
      (target : v.Derives ts) (hmark : mark.kind = .assignment) (value : e.Derives us)
      (hclosed : closed.kind = .semicolon) :
      Derives rule next (ts ++ mark :: (us ++ [closed]))
        (.stmt (.assign v e mark.span.start) false)
  | call {next : Position} {name opened closed mark : Token} {ts : List Token} {es : List Expr}
      (hname : name.kind = .identifier) (hopened : opened.kind = .openParen)
      (arguments : Separated (fun ts e => e.Derives ts) ts es)
      (hclosed : closed.kind = .closeParen) (hmark : mark.kind = .semicolon) :
      Derives rule next (name :: opened :: (ts ++ [closed, mark]))
        (.stmt (.call name.value es name.span.start) false)
  | ifElse {next : Position} {start opened closed mark : Token} {ts us vs : List Token} {e : Expr}
      {s₁ s₂ : Stmt} {d₁ d₂ : Bool} (hstart : start.kind = .ifWord)
      (hopened : opened.kind = .openParen) (condition : e.Derives ts)
      (hclosed : closed.kind = .closeParen)
      (thenBranch : Derives rule mark.span.start us (.stmt s₁ d₁))
      (nearest : rule = .nearest → d₁ = false) (hmark : mark.kind = .elseWord)
      (elseBranch : Derives rule next vs (.stmt s₂ d₂)) :
      Derives rule next (start :: opened :: (ts ++ closed :: (us ++ mark :: vs)))
        (.stmt (.conditional e s₁ s₂ start.span.start) d₂)
  | ifOnly {next : Position} {start opened closed : Token} {ts us : List Token} {e : Expr}
      {s : Stmt} {d : Bool} (hstart : start.kind = .ifWord) (hopened : opened.kind = .openParen)
      (condition : e.Derives ts) (hclosed : closed.kind = .closeParen)
      (thenBranch : Derives rule next us (.stmt s d)) :
      Derives rule next (start :: opened :: (ts ++ closed :: us))
        (.stmt (.conditional e s (.empty next) start.span.start) true)
  | loop {next : Position} {start opened closed : Token} {ts us : List Token} {e : Expr}
      {s : Stmt} {d : Bool} (hstart : start.kind = .whileWord) (hopened : opened.kind = .openParen)
      (condition : e.Derives ts) (hclosed : closed.kind = .closeParen)
      (body : Derives rule next us (.stmt s d)) :
      Derives rule next (start :: opened :: (ts ++ closed :: us))
        (.stmt (.loop e s start.span.start) d)
  | nil {next : Position} : Derives rule next [] (.stmts [])
  | cons {next : Position} {ts us : List Token} {s : Stmt} {d : Bool} {ss : List Stmt}
      (head : Derives rule (startOf next us) ts (.stmt s d))
      (tail : Derives rule next us (.stmts ss)) :
      Derives rule next (ts ++ us) (.stmts (s :: ss))

theorem StmtPhrase.Derives.ne_nil {rule : ElseRule} {next : Position} {ts : List Token} {s : Stmt}
    {d : Bool} (h : Derives rule next ts (.stmt s d)) : ts ≠ [] := by
  cases h <;> simp

/-! ### Declarations -/

/-- `type name = type;` -/
inductive TypeDeclaration.Derives : List Token → TypeDeclaration → Prop
  | intro {start name mark closed : Token} {ts : List Token} {type : TypeExpr}
      (hstart : start.kind = .typeWord) (hname : name.kind = .identifier)
      (hmark : mark.kind = .equals) (htype : type.Derives ts) (hclosed : closed.kind = .semicolon) :
      Derives (start :: name :: mark :: (ts ++ [closed])) ⟨name.value, type, start.span.start⟩

/-- `name: type` and `ref name: type` -/
inductive Parameter.Derives : List Token → Parameter → Prop
  | byValue {name mark : Token} {ts : List Token} {type : TypeExpr}
      (hname : name.kind = .identifier) (hmark : mark.kind = .colon) (htype : type.Derives ts) :
      Derives (name :: mark :: ts) ⟨name.value, type, false, name.span.start⟩
  | byReference {start name mark : Token} {ts : List Token} {type : TypeExpr}
      (hstart : start.kind = .refWord) (hname : name.kind = .identifier)
      (hmark : mark.kind = .colon) (htype : type.Derives ts) :
      Derives (start :: name :: mark :: ts) ⟨name.value, type, true, name.span.start⟩

theorem Parameter.Derives.ne_nil {ts : List Token} {p : Parameter} (h : p.Derives ts) :
    ts ≠ [] := by
  cases h <;> exact List.cons_ne_nil _ _

/-- `var name: type;` -/
inductive LocalVariable.Derives : List Token → LocalVariable → Prop
  | intro {start name mark closed : Token} {ts : List Token} {type : TypeExpr}
      (hstart : start.kind = .varWord) (hname : name.kind = .identifier)
      (hmark : mark.kind = .colon) (htype : type.Derives ts) (hclosed : closed.kind = .semicolon) :
      Derives (start :: name :: mark :: (ts ++ [closed])) ⟨name.value, type, name.span.start⟩

theorem LocalVariable.Derives.ne_nil {ts : List Token} {v : LocalVariable} (h : v.Derives ts) :
    ts ≠ [] := by
  cases h
  exact List.cons_ne_nil _ _

/-- `proc name(parameters) { variables statements }` -/
inductive Procedure.Derives (rule : ElseRule) : List Token → Procedure → Prop
  | intro {start name opened closed opened' closed' : Token} {ts us vs : List Token}
      {parameters : List Parameter} {locals : List LocalVariable} {body : List Stmt}
      (hstart : start.kind = .procWord) (hname : name.kind = .identifier)
      (hopened : opened.kind = .openParen)
      (hparameters : Separated (fun ts p => p.Derives ts) ts parameters)
      (hclosed : closed.kind = .closeParen) (hopened' : opened'.kind = .openCurly)
      (hlocals : Sequence (fun ts v => v.Derives ts) us locals)
      (hbody : StmtPhrase.Derives rule closed'.span.start vs (.stmts body))
      (hclosed' : closed'.kind = .closeCurly) :
      Derives rule
        (start :: name :: opened :: (ts ++ closed :: opened' :: (us ++ (vs ++ [closed']))))
        ⟨name.value, parameters, locals, body, name.span.start⟩

inductive Declaration.Derives (rule : ElseRule) : List Token → Declaration → Prop
  | type {ts : List Token} {d : TypeDeclaration} (h : d.Derives ts) : Derives rule ts (.type d)
  | procedure {ts : List Token} {d : Procedure} (h : d.Derives rule ts) :
      Derives rule ts (.procedure d)

theorem Declaration.Derives.ne_nil {rule : ElseRule} {ts : List Token} {d : Declaration}
    (h : d.Derives rule ts) : ts ≠ [] := by
  cases h with
  | type h =>
      cases h
      exact List.cons_ne_nil _ _
  | procedure h =>
      cases h
      exact List.cons_ne_nil _ _

/-- The declarations of a program, from the first token to the last. -/
def Program.Derives (rule : ElseRule) : List Token → List Declaration → Prop :=
  Sequence (Declaration.Derives rule)

end Spl
