import Spl.Proofs.Syntax.Rules

/-!
Where the nodes of a program stand. The position of a node is the start of the
token that shows what the node is: the name of a variable, of a call or of a
declaration, the operator of an expression, the mark of an assignment, and the
word that a condition follows.
-/

namespace Spl

/-! ### Parts of lists -/

section Infix

variable {α : Type} {xs ys zs : List α} {x y : α}

theorem infix_left (h : xs ++ ys <:+: zs) : xs <:+: zs :=
  (List.prefix_append xs ys).isInfix.trans h

theorem infix_right (h : xs ++ ys <:+: zs) : ys <:+: zs :=
  (List.suffix_append xs ys).isInfix.trans h

theorem infix_tail (h : x :: ys <:+: zs) : ys <:+: zs :=
  (List.suffix_cons x ys).isInfix.trans h

theorem mem_of_infix_cons (h : x :: ys <:+: zs) : x ∈ zs :=
  h.subset List.mem_cons_self

theorem infix_pair (h : x :: y :: xs <:+: zs) : [x, y] <:+: zs :=
  (List.prefix_append [x, y] xs).isInfix.trans h

end Infix

/-! ### Tokens -/

namespace Token

def IsName (name : String) (t : Token) : Prop :=
  t.kind = .identifier ∧ t.value = name

/-- The kinds of the marks of operators. -/
def operators : List (TokenKind × BinaryOp) :=
  Tier.comparisons ++ Tier.additions ++ Tier.multiplications

/-- If the token is of the kind of an operator, it is written like the operator. -/
def Spelled (t : Token) : Prop :=
  ∀ op, (t.kind, op) ∈ operators → t.value = op.text

end Token

/-- Some token starts at the position, and has the property. -/
def Position.Shows (position : Position) (ts : List Token) (P : Token → Prop) : Prop :=
  ∃ t ∈ ts, t.span.start = position ∧ P t

theorem Position.Shows.mono {position : Position} {ts : List Token} {P Q : Token → Prop}
    (h : position.Shows ts P) (hPQ : ∀ t, P t → Q t) : position.Shows ts Q := by
  obtain ⟨t, ht, hstart, hP⟩ := h
  exact ⟨t, ht, hstart, hPQ t hP⟩

/-- A token that stands right in front of one with the property. -/
def Token.Before (ts : List Token) (P : Token → Prop) (t : Token) : Prop :=
  ∃ u, [t, u] <:+: ts ∧ P u

/-- A token that stands right behind one with the property. -/
def Token.Behind (ts : List Token) (P : Token → Prop) (t : Token) : Prop :=
  ∃ u, [u, t] <:+: ts ∧ P u

/-! ### Nodes -/

section Nodes

variable (ts : List Token)

def TypeExpr.Placed : TypeExpr → Prop
  | .named name position _ => position.Shows ts (Token.IsName name)
  | .array _ element _ _ => element.Placed

mutual

def Expr.Placed : Expr → Prop
  | .int _ _ _ => True
  | .var v _ _ => v.Placed
  | .unary op operand position _ =>
    operand.Placed ∧ position.Shows ts fun t => t.kind = .dash ∧ t.value = op.text
  | .binary op left right position _ =>
    left.Placed ∧ right.Placed ∧
      position.Shows ts fun t => (t.kind, op) ∈ Token.operators ∧ t.value = op.text

def Variable.Placed : Variable → Prop
  | .named name position _ => position.Shows ts (Token.IsName name)
  | .element array index position _ =>
    array.Placed ∧ index.Placed ∧
      position.Shows ts fun t => t.kind = .identifier ∧ t.Before ts (·.kind = .openBracket)

end

inductive Stmt.Placed : Stmt → Prop
  | empty {position : Position} : Placed (.empty position)
  | compound {body : List Stmt} {position : Position} (h : ∀ s ∈ body, Placed s) :
      Placed (.compound body position)
  | assign {target : Variable} {value : Expr} {position : Position} (ht : target.Placed ts)
      (hv : value.Placed ts) (h : position.Shows ts (·.kind = .assignment)) :
      Placed (.assign target value position)
  | call {procedure : String} {arguments : List Expr} {position : Position}
      (ha : ∀ e ∈ arguments, e.Placed ts) (h : position.Shows ts (Token.IsName procedure)) :
      Placed (.call procedure arguments position)
  | conditional {condition : Expr} {thenBranch elseBranch : Stmt} {position : Position}
      (hc : condition.Placed ts) (ht : Placed thenBranch) (he : Placed elseBranch)
      (h : position.Shows ts (·.kind = .ifWord)) :
      Placed (.conditional condition thenBranch elseBranch position)
  | loop {condition : Expr} {body : Stmt} {position : Position} (hc : condition.Placed ts)
      (hb : Placed body) (h : position.Shows ts (·.kind = .whileWord)) :
      Placed (.loop condition body position)

structure TypeDeclaration.Placed (d : TypeDeclaration) : Prop where
  type : d.type.Placed ts
  start : d.position.Shows ts fun t => t.kind = .typeWord ∧ t.Before ts (Token.IsName d.name)

structure Parameter.Placed (p : Parameter) : Prop where
  type : p.type.Placed ts
  name : p.position.Shows ts (Token.IsName p.name)

structure LocalVariable.Placed (v : LocalVariable) : Prop where
  type : v.type.Placed ts
  name : v.position.Shows ts (Token.IsName v.name)

structure Procedure.Placed (p : Procedure) : Prop where
  parameters : ∀ q ∈ p.parameters, q.Placed ts
  locals : ∀ v ∈ p.locals, v.Placed ts
  body : ∀ s ∈ p.body, s.Placed ts
  name : p.position.Shows ts fun t => t.IsName p.name ∧ t.Behind ts (·.kind = .procWord)

def Declaration.Placed : Declaration → Prop
  | .type d => d.Placed ts
  | .procedure p => p.Placed ts

def ExprPhrase.Placed : ExprPhrase → Prop
  | .expr _ e => e.Placed ts
  | .place v => v.Placed ts

def StmtPhrase.Placed : StmtPhrase → Prop
  | .stmt s _ => s.Placed ts
  | .stmts ss => ∀ s ∈ ss, s.Placed ts

end Nodes

/-! ### Phrases

A phrase is derived from tokens that stand in the list one after another. -/

variable {ts us : List Token}

theorem shows_of_mem {t : Token} {P : Token → Prop} (ht : t ∈ ts) (h : P t) :
    t.span.start.Shows ts P :=
  ⟨t, ht, rfl, h⟩

theorem TypeExpr.Derives.placed {e : TypeExpr} (h : e.Derives us) (hus : us <:+: ts) :
    e.Placed ts := by
  induction h with
  | named kind => exact shows_of_mem (mem_of_infix_cons hus) ⟨kind, rfl⟩
  | array _ _ _ _ _ _ _ ih =>
      exact ih (infix_tail (infix_tail (infix_tail (infix_tail (infix_tail hus)))))

/-- A variable has the position of its first token. -/
theorem ExprPhrase.Derives.position_eq {v : Variable} (h : Derives us (.place v)) {name : Token}
    {vs : List Token} (hus : us = name :: vs) : v.position = name.span.start := by
  generalize hphrase : ExprPhrase.place v = phrase at h
  induction h generalizing v vs with
  | named =>
      cases hphrase
      cases hus
      rfl
  | @element _ _ _ _ array _ harray _ _ _ iharray _ =>
      cases hphrase
      obtain ⟨first, others, rfl, -, -⟩ := harray.exists_name
      cases hus
      exact iharray (v := array) rfl rfl
  | _ => cases hphrase

theorem ExprPhrase.Derives.placed (hts : ∀ t ∈ ts, t.Spelled) {phrase : ExprPhrase}
    (h : Derives us phrase) (hus : us <:+: ts) : phrase.Placed ts := by
  -- A binary expression of any tier has the position of its operator.
  have hbinary : ∀ {us vs : List Token} {mark : Token} {op : BinaryOp},
      us ++ mark :: vs <:+: ts → (mark.kind, op) ∈ Token.operators →
        mark.span.start.Shows ts fun t => (t.kind, op) ∈ Token.operators ∧ t.value = op.text := by
    intro us vs mark op hinfix hop
    have hmark := mem_of_infix_cons (infix_right hinfix)
    exact shows_of_mem hmark ⟨hop, hts mark hmark op hop⟩
  induction h with
  | comparison _ hop _ ihleft ihright =>
      exact ⟨ihleft (infix_left hus), ihright (infix_tail (infix_right hus)),
        hbinary hus (by simp [Token.operators, hop])⟩
  | sum _ hop _ ihleft ihright =>
      exact ⟨ihleft (infix_left hus), ihright (infix_tail (infix_right hus)),
        hbinary hus (by simp [Token.operators, hop])⟩
  | product _ hop _ ihleft ihright =>
      exact ⟨ihleft (infix_left hus), ihright (infix_tail (infix_right hus)),
        hbinary hus (by simp [Token.operators, hop])⟩
  | ofSum _ ih | ofProduct _ ih | ofSigned _ ih | ofPrimary _ ih | read _ ih => exact ih hus
  | @negation sign _ _ hsign _ ih =>
      have hmem := mem_of_infix_cons hus
      have hvalue : sign.value = BinaryOp.sub.text := hts sign hmem .sub (by rw [hsign]; decide)
      exact ⟨ih (infix_tail hus), shows_of_mem hmem ⟨hsign, hvalue⟩⟩
  | literal => trivial
  | group _ _ _ ih => exact ih (infix_left (infix_tail hus))
  | named hname => exact shows_of_mem (mem_of_infix_cons hus) ⟨hname, rfl⟩
  | @element us vs opened closed array index harray hopened _ _ iharray ihindex =>
      refine ⟨iharray (infix_left hus), ihindex (infix_left (infix_tail (infix_right hus))), ?_⟩
      obtain ⟨name, others, rfl, hname, hothers⟩ := harray.exists_name
      refine ⟨name, mem_of_infix_cons hus, (harray.position_eq rfl).symm, hname, ?_⟩
      cases others with
      | nil => exact ⟨opened, infix_pair hus, hopened⟩
      | cons u others => exact ⟨u, infix_pair hus, hothers u others rfl⟩

theorem Sequence.forall_placed {α : Type} {D : List Token → α → Prop} {P : α → Prop} {xs : List α}
    (hD : ∀ vs x, D vs x → vs <:+: ts → P x) (h : Sequence D us xs) (hus : us <:+: ts) :
    ∀ x ∈ xs, P x := by
  induction h with
  | nil => exact fun x hx => absurd hx List.not_mem_nil
  | cons head _ ih =>
      exact List.forall_mem_cons.mpr ⟨hD _ _ head (infix_left hus), ih (infix_right hus)⟩

theorem Separated.forall_placed {α : Type} {D : List Token → α → Prop} {P : α → Prop} {xs : List α}
    (hD : ∀ vs x, D vs x → vs <:+: ts → P x) (h : Separated D us xs) (hus : us <:+: ts) :
    ∀ x ∈ xs, P x := by
  cases h with
  | none => exact fun x hx => absurd hx List.not_mem_nil
  | some first others =>
      refine List.forall_mem_cons.mpr ⟨hD _ _ first (infix_left hus), ?_⟩
      refine others.forall_placed (fun vs x hx hvs => ?_) (infix_right hus)
      cases hx with
      | intro _ hx => exact hD _ _ hx (infix_tail hvs)

theorem StmtPhrase.Derives.placed (hts : ∀ t ∈ ts, t.Spelled) {rule : ElseRule} {next : Position}
    {phrase : StmtPhrase} (h : Derives rule next us phrase) (hus : us <:+: ts) :
    phrase.Placed ts := by
  induction h with
  | empty => exact .empty
  | compound _ _ _ ih => exact .compound (ih (infix_left (infix_tail hus)))
  | assign target hmark value _ =>
      exact .assign (ExprPhrase.Derives.placed hts target (infix_left hus))
        (ExprPhrase.Derives.placed hts value (infix_left (infix_tail (infix_right hus))))
        (shows_of_mem (mem_of_infix_cons (infix_right hus)) hmark)
  | call hname _ arguments _ _ =>
      refine .call ?_ (shows_of_mem (mem_of_infix_cons hus) ⟨hname, rfl⟩)
      have hrest := infix_left (infix_tail (infix_tail hus))
      refine arguments.forall_placed (fun vs e he hvs => ?_) hrest
      exact ExprPhrase.Derives.placed hts he hvs
  | ifElse hstart _ condition _ _ _ _ _ ihthen ihelse =>
      have hrest := infix_tail (infix_tail hus)
      have hbranches := infix_tail (infix_right hrest)
      exact .conditional (ExprPhrase.Derives.placed hts condition (infix_left hrest))
        (ihthen (infix_left hbranches)) (ihelse (infix_tail (infix_right hbranches)))
        (shows_of_mem (mem_of_infix_cons hus) hstart)
  | ifOnly hstart _ condition _ _ ih =>
      have hrest := infix_tail (infix_tail hus)
      exact .conditional (ExprPhrase.Derives.placed hts condition (infix_left hrest))
        (ih (infix_tail (infix_right hrest))) .empty (shows_of_mem (mem_of_infix_cons hus) hstart)
  | loop hstart _ condition _ _ ih =>
      have hrest := infix_tail (infix_tail hus)
      exact .loop (ExprPhrase.Derives.placed hts condition (infix_left hrest))
        (ih (infix_tail (infix_right hrest))) (shows_of_mem (mem_of_infix_cons hus) hstart)
  | nil => exact fun s hs => absurd hs List.not_mem_nil
  | cons _ _ ihhead ihtail =>
      exact List.forall_mem_cons.mpr ⟨ihhead (infix_left hus), ihtail (infix_right hus)⟩

/-! ### Declarations -/

theorem TypeDeclaration.Derives.placed {d : TypeDeclaration} (h : d.Derives us)
    (hus : us <:+: ts) : d.Placed ts := by
  cases h with
  | @intro start name mark closed vs type hstart hname _ htype _ =>
      refine ⟨htype.placed (infix_left (infix_tail (infix_tail (infix_tail hus)))), ?_⟩
      refine shows_of_mem (mem_of_infix_cons hus) ⟨hstart, name, ?_, hname, rfl⟩
      exact infix_pair hus

theorem Parameter.Derives.placed {p : Parameter} (h : p.Derives us) (hus : us <:+: ts) :
    p.Placed ts := by
  cases h with
  | byValue hname _ htype =>
      exact ⟨htype.placed (infix_tail (infix_tail hus)),
        shows_of_mem (mem_of_infix_cons hus) ⟨hname, rfl⟩⟩
  | byReference _ hname _ htype =>
      exact ⟨htype.placed (infix_tail (infix_tail (infix_tail hus))),
        shows_of_mem (mem_of_infix_cons (infix_tail hus)) ⟨hname, rfl⟩⟩

theorem LocalVariable.Derives.placed {v : LocalVariable} (h : v.Derives us) (hus : us <:+: ts) :
    v.Placed ts := by
  cases h with
  | intro _ hname _ htype _ =>
      exact ⟨htype.placed (infix_left (infix_tail (infix_tail (infix_tail hus)))),
        shows_of_mem (mem_of_infix_cons (infix_tail hus)) ⟨hname, rfl⟩⟩

/-- A procedure has the position of its name. -/
theorem Procedure.Derives.name_shows {rule : ElseRule} {p : Procedure} (h : p.Derives rule us)
    (hus : us <:+: ts) :
    p.position.Shows ts fun t => t.IsName p.name ∧ t.Behind ts (·.kind = .procWord) := by
  cases h with
  | @intro start name _ _ _ _ _ _ _ _ _ _ hstart hname =>
      refine shows_of_mem (mem_of_infix_cons (infix_tail hus)) ⟨⟨hname, rfl⟩, start, ?_, hstart⟩
      exact infix_pair hus

theorem Procedure.Derives.placed (hts : ∀ t ∈ ts, t.Spelled) {rule : ElseRule} {p : Procedure}
    (h : p.Derives rule us) (hus : us <:+: ts) : p.Placed ts := by
  have hposition := h.name_shows hus
  cases h with
  | @intro start name opened closed opened' closed' _ _ _ _ _ _ _ _ _ hparameters _ _
      hlocals hbody _ =>
      have hrest := infix_tail (infix_tail (infix_tail hus))
      have hinner := infix_tail (infix_tail (infix_right hrest))
      exact ⟨hparameters.forall_placed (fun vs q hq hvs => hq.placed hvs) (infix_left hrest),
        hlocals.forall_placed (fun vs v hv hvs => hv.placed hvs) (infix_left hinner),
        hbody.placed hts (infix_left (infix_right hinner)), hposition⟩

theorem Declaration.Derives.placed (hts : ∀ t ∈ ts, t.Spelled) {rule : ElseRule} {d : Declaration}
    (h : d.Derives rule us) (hus : us <:+: ts) : d.Placed ts := by
  cases h with
  | type h => exact h.placed hus
  | procedure h => exact h.placed hts hus

/-- All declarations of a program stand where its tokens show them. -/
theorem Program.Derives.placed (hts : ∀ t ∈ ts, t.Spelled) {rule : ElseRule}
    {ds : List Declaration} (h : Program.Derives rule us ds) (hus : us <:+: ts) :
    ∀ d ∈ ds, d.Placed ts :=
  Sequence.forall_placed (fun _ _ hd hvs => hd.placed hts hvs) h hus

end Spl
