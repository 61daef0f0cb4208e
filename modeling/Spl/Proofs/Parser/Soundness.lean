import Spl.Proofs.Parser.Reactions
import Spl.Proofs.Syntax.Standard

/-!
Soundness of the readers. The tokens that a reader takes are those of a phrase of
the grammar: the one that it answers. And where it complains, the tokens so far
are the beginning of such a phrase. There is one lemma for each reader, and one
for what its loops do in a round.
-/

namespace Spl

open Spl.Parser

/-! ### Literals -/

namespace Literal

/-- What is wrong with a literal is found when it has been taken. -/
theorem complains_of_value {t : Token} {d : Diagnostic} {us rest : List Token}
    (htake : take (t :: us) = .ok t rest) (h : value t = .error (.diagnostic d)) :
    Complains t us d rest := by
  have helim : ∀ found : Option Int32,
      found.elim (throw (unreadable t)) pure = (.error (.diagnostic d) : Except Halt Int32) →
        Complains t us d rest := by
    rintro (_ | n) herror
    · cases herror
      exact .unreadable htake
    · cases herror
  unfold value at h
  split at h
  · exact helim _ h
  · split at h
    · cases h
    · exact helim _ h
  · exact helim _ h
  · cases h
    exact .noLiteral htake

theorem complains_of_size {t : Token} {d : Diagnostic} {us rest : List Token}
    (htake : take (t :: us) = .ok t rest) (h : size t = .error (.diagnostic d)) :
    Complains t us d rest := by
  rw [size] at h
  cases hvalue : value t with
  | error halt =>
      rw [hvalue] at h
      cases h
      exact complains_of_value htake hvalue
  | ok n =>
      rw [hvalue] at h
      by_cases hn : 0 ≤ n
      · rw [show (Except.ok n >>= _) = _ from if_pos hn] at h
        cases h
      · rw [show (Except.ok n >>= _) = _ from if_neg hn] at h
        cases h
        exact .unreadable htake

/-- A literal that can stand wherever one can. -/
def zero : Token := ⟨.number, "0", .null, .null⟩

theorem denotes_zero : zero.Denotes 0 := by
  have hspells : Spells 10 zero.value.toList 0 := ⟨[0], .cons (by decide) .nil, by simp, by simp⟩
  exact .decimal rfl hspells (by decide)

theorem inside_zero : Inside [zero] := by
  simp [Inside, zero, Token.Lexical]

end Literal

section Literals

variable {α : Type} {m k : Nat} {t : Token} {Q : List Token → Token → α → Prop}

theorem reads_arraySize {f : Nat → UInt32 → Parser α}
    (h : ∀ size n u, size.Denotes n → 0 ≤ n →
      Reads m (k + 1) (fun i => f i n.toUInt32) u fun us => Q (size :: us)) :
    Reads m k (fun i => arraySize >>= f i) t Q := by
  intro ht
  have hsize := Literal.settles_size ht
  cases hvalue : Literal.size t with
  | ok size =>
      obtain ⟨n, hn, hsign, rfl⟩ := hsize.of_ok hvalue
      refine Reads.step hn.kind_ne_eof (fun u us i => ?_) (fun u => h t n u hn hsign) ht
      refine bind_eq ?_
      rw [arraySize, bind_take (List.cons_ne_nil u us), hvalue]
      rfl
  | error halt =>
      rw [hvalue] at hsize
      match halt, hsize with
      | .diagnostic d, _ =>
          have hviable : Viable Q := .behind Literal.inside_zero
            (h Literal.zero 0 t Literal.denotes_zero (by decide) ht).1
          refine Reads.complain (d := d) hviable (fun us => ?_) ht
          obtain ⟨rest, htake⟩ := exists_take t us
          refine ⟨rest, Literal.complains_of_size htake hvalue, fun i _ => bind_error ?_⟩
          rw [arraySize, bind_eq htake, hvalue]
          rfl

theorem reads_intLiteral {Q : List Token → Token → Expr → Prop}
    (h : ∀ (t : Token) n u, t.Denotes n → Q [t] u (.int n t.span.start none)) :
    Reads m k (fun _ => intLiteral) t Q := by
  intro ht
  have hsettles := Literal.settles_value ht
  cases hvalue : Literal.value t with
  | ok n =>
      have hn := hsettles.of_ok hvalue
      refine Reads.step hn.kind_ne_eof (fun u us _ => ?_) (fun u => Reads.pure (h t n u hn)) ht
      rw [intLiteral, bind_take (List.cons_ne_nil u us), hvalue]
  | error halt =>
      rw [hvalue] at hsettles
      match halt, hsettles with
      | .diagnostic d, _ =>
          have hviable : Viable Q :=
            ⟨[Literal.zero], t, _, Literal.inside_zero, ht, h _ _ t Literal.denotes_zero⟩
          refine Reads.complain (d := d) hviable (fun us => ?_) ht
          obtain ⟨rest, htake⟩ := exists_take t us
          refine ⟨rest, Literal.complains_of_value htake hvalue, fun i _ => ?_⟩
          rw [intLiteral, bind_eq htake, hvalue]
          rfl

end Literals

/-! ### Lists -/

theorem Sequence.snoc {α : Type} {D : List Token → α → Prop} {ts us : List Token} {x : α}
    {xs : List α} (h : Sequence D ts xs) (hx : D us x) : Sequence D (ts ++ us) (xs ++ [x]) := by
  induction h with
  | nil => simpa using Sequence.cons hx .nil
  | cons head _ ih =>
      rw [List.append_assoc]
      exact .cons head ih

theorem StmtPhrase.Derives.snoc {rule : ElseRule} {next : Position} {ts us : List Token}
    {ss : List Stmt} {s : Stmt} {d : Bool} (h : Derives rule (startOf next us) ts (.stmts ss))
    (hs : Derives rule next us (.stmt s d)) :
    Derives rule next (ts ++ us) (.stmts (ss ++ [s])) := by
  generalize hnext : startOf next us = start at h
  generalize hphrase : StmtPhrase.stmts ss = phrase at h
  induction h generalizing ss with
  | nil =>
      cases hphrase
      have hone : Derives rule next (us ++ []) (.stmts [s]) := .cons hs .nil
      rwa [List.append_nil] at hone
  | cons head _ _ ih =>
      cases hphrase
      rw [List.append_assoc]
      rw [← hnext, ← startOf_append] at head
      exact .cons head (ih hnext rfl)
  | _ => cases hphrase

section Lists

variable {α : Type} {m k : Nat} {t : Token} {D : List Token → α → Prop} {item : Nat → Parser α}

/-- Items are read up to a token that does not go on, one after another. -/
theorem reads_sequence {more : TokenKind → Bool} {v : Token} (hv : v.Lexical)
    (hstop : more v.kind = false)
    (hitem : ∀ k u, more u.kind = true → Reads m k item u fun us _ x => us ≠ [] ∧ D us x) :
    Reads m k (fun n => collectWhile more (item n)) t fun us u xs =>
      Sequence D us xs ∧ more u.kind = false := by
  refine Reads.collectWhile (I := fun us _ xs => Sequence D us xs) ?_ ?_ .nil
  · intro us u xs hus hxs hmore
    exact (hitem _ u hmore).mono fun vs v x _ hx => ⟨hx.1, fun _ => hxs.snoc hx.2⟩
  · intro us u xs hxs
    exact ⟨v, xs, hv, hstop, hxs⟩

/-- What is read in each round of a list that is separated by commas. -/
theorem reads_furtherItem (ht : t.kind = .comma)
    (hitem : ∀ k u, Reads m k item u fun us _ x => D us x) :
    Reads m k (fun n => take >>= fun _ => item n) t fun us _ x => AfterComma D us x :=
  .take (by rw [ht]; decide) fun u => (hitem _ u).mono fun _ _ _ _ hx => .intro ht hx

theorem reads_parenthesised (hitem : ∀ k u, Reads m k item u fun us _ x => D us x) :
    Reads m k (fun n => parenthesised (item n)) t fun us _ xs => Separated D us xs := by
  refine Reads.currentKind ?_
  split
  · exact .pure .none
  · refine (hitem k t).bind fun us u x hus hx => ?_
    refine (reads_sequence (D := AfterComma D) (v := ⟨.closeParen, ")", .null, .null⟩) trivial rfl
      fun k u hcomma => ?_).map fun vs v xs _ hxs => .some hx hxs.1
    have hkind : u.kind = .comma := by simpa using hcomma
    exact (reads_furtherItem hkind hitem).mono fun vs v x _ hx => ⟨hx.ne_nil, hx⟩

end Lists

namespace Grammar

/-! ### Types -/

/-- A name that can stand wherever one can. -/
def anyName : Token := ⟨.identifier, "x", .null, .null⟩

theorem inside_anyName : Inside [anyName] := by
  simp [Inside, anyName, Token.Lexical]

theorem reads_typeWithin (m : Nat) (t : Token) :
    Reads m 0 (fun n => standard.typeWithin n) t fun us _ e => e.Derives us := by
  have hviable : Viable fun us _ (e : TypeExpr) => e.Derives us :=
    ⟨[anyName], anyName, _, inside_anyName, trivial, .named rfl⟩
  induction m generalizing t with
  | zero => exact fun _ => ⟨hviable, fun _ _ h => absurd h (Nat.not_lt_zero _)⟩
  | succ m ih =>
      refine .of_eq (fun us n hn => congrFun (typeWithin_eq standard hn) (t :: us))
        (.currentKind ?_)
      cases hrule : standard.type t.kind with
      | none => exact .misplaced hviable (by decide)
      | some rule =>
          cases rule with
          | any =>
              rw [type_standard] at hrule
              split at hrule <;> cases hrule
          | named => exact .expect (by decide) fun name _ hname => .pure (.named hname)
          | array =>
              refine .expect (by decide) fun start _ hstart => ?_
              refine .expect (by decide) fun opened _ hopened => ?_
              refine reads_arraySize fun size n _ hsize hsign => ?_
              refine .expect (by decide) fun closed _ hclosed => ?_
              refine .expect (by decide) fun mark u hmark => ?_
              refine ((ih u).nested (by omega)).map fun us v e _ he => ?_
              exact .array hstart hopened hsize hsign hclosed hmark he

theorem reads_typeExpr {m k : Nat} {t : Token} :
    Reads m k (fun _ => standard.typeExpr) t fun us _ e => e.Derives us :=
  .of_within (typeExpr_apply standard) fun m => reads_typeWithin m t

/-! ### Expressions

A reader of expressions stops only in front of a token that does not bind
tighter than its power. This is what the reader around it goes on from. -/

/-- What is taken of the tokens by a reader of expressions. -/
def ExprRead (power : Power) (us : List Token) (u : Token) (e : Expr) : Prop :=
  ExprPhrase.Derives us (.expr power.tier e) ∧ ¬ power < standard.powerOf u.kind

/-- A token that ends all expressions. -/
def anySemicolon : Token := ⟨.semicolon, ";", .null, .null⟩

theorem viable_exprRead (power : Power) : Viable (ExprRead power) := by
  have hname : ExprPhrase.Derives [anyName] (.expr .primary _) := .read (.named rfl)
  exact ⟨[anyName], anySemicolon, _, inside_anyName, trivial,
    hname.loosen (by cases power <;> decide), Nat.not_lt_zero _⟩

/-- The tokens are an expression, of a level that is tight enough both for the
power and for the operator that may come next. -/
def ExprSoFar (power : Power) (us : List Token) (u : Token) (e : Expr) : Prop :=
  ∃ tier, ExprPhrase.Derives us (.expr tier e) ∧ power.tier.rank ≤ tier.rank ∧
    (standard.powerOf u.kind).rank ≤ tier.bound.rank

/-- An operator makes an expression of two, and what follows does not bind
tighter than the operator did. -/
theorem ExprSoFar.binary {power : Power} {us vs : List Token} {t u : Token} {op : BinaryOp}
    {left right : Expr} (hleft : ExprSoFar power us t left) (hlt : power < standard.powerOf t.kind)
    (hop : (t.kind, op) ∈ (standard.powerOf t.kind).operators)
    (hright : ExprRead (standard.powerOf t.kind) vs u right)
    (hchain : ¬ (standard.powerOf t.kind = .relational ∧ standard.powerOf u.kind = .relational)) :
    ExprSoFar power (us ++ t :: vs) u (.binary op left right t.span.start none) := by
  obtain ⟨tier, hleft, -, hbound⟩ := hleft
  obtain ⟨hright, hstop⟩ := hright
  exact ⟨_, .binary hop hbound hleft hright, (Power.lt_iff_tier_rank_le hop).mp hlt,
    Power.rank_le_bound_result hop hstop hchain⟩

section Expressions

-- The expressions inside are read behind a token at least.
variable {m k : Nat} {inner : Nat → Power → Parser Expr} {t : Token}
  (hinner : ∀ k power u, 0 < k → Reads m k (fun n => inner n power) u (ExprRead power))

include hinner

/-- An index, whatever it is behind. -/
theorem reads_indexWith {start : Position} {array : Variable} (ht : t.kind = .openBracket) :
    Reads m k (fun n => indexWith (inner n) start array) t fun us _ v =>
      ∃ vs index closed, us = t :: (vs ++ [closed]) ∧ index.Derives vs ∧
        closed.kind = .closeBracket ∧ v = .element array index start none := by
  refine .take (by rw [ht]; decide) fun u => ?_
  refine (hinner _ .lowest u (Nat.succ_pos k)).bind fun vs v index _ hindex => ?_
  refine .expect (by decide) fun closed w hclosed => .pure ?_
  exact ⟨vs, index, closed, by simp, hindex.1, hclosed, rfl⟩

/-- The indices behind a name, which do not change the position of a variable. -/
theorem reads_indices {name : Token} (hname : name.kind = .identifier) :
    Reads m k (fun n => foldWhile (· == .openBracket) (indexWith (inner n) name.span.start)
      (.named name.value name.span.start none)) t fun us _ v => v.Derives (name :: us) := by
  refine Reads.mono (.foldWhile (I := fun us _ v => v.Derives (name :: us) ∧
    v.position = name.span.start) ?_ ?_ ⟨.named hname, rfl⟩) fun us u v _ hv => hv.1.1
  · rintro us u array hus ⟨harray, hposition⟩ hmore
    have hkind : u.kind = .openBracket := by simpa using hmore
    refine (reads_indexWith hinner hkind).mono ?_
    rintro _ w v - ⟨vs, index, closed, rfl, hindex, hclosed, rfl⟩
    refine ⟨List.cons_ne_nil _ _, fun _ => ⟨?_, rfl⟩⟩
    rw [← hposition]
    exact .element harray hkind hindex hclosed
  · rintro us u v hv
    exact ⟨anySemicolon, v, trivial, rfl, hv⟩

theorem reads_variableWith :
    Reads m k (fun n => variableWith (inner n)) t fun us _ v => v.Derives us :=
  .expect (by decide) fun _ _ hname => reads_indices hinner hname

theorem reads_operand {rule : OperandRule} (hrule : standard.operand t.kind = some rule) :
    Reads m k (fun n => rule.readWith (inner n)) t fun us _ e =>
      ExprPhrase.Derives us (.expr .signed e) := by
  have hkind := kind_of_operand hrule
  cases rule with
  | literal => exact reads_intLiteral fun t n u hn => .ofPrimary (.literal hn)
  | var => exact (reads_variableWith hinner).map fun us u v _ hv => .ofPrimary (.read hv)
  | negation =>
      refine .take (by rw [hkind]; decide) fun u => ?_
      exact (hinner _ .unary u (Nat.succ_pos k)).map fun us v e _ he => .negation hkind he.1
  | group =>
      refine .take (by rw [hkind]; decide) fun u => ?_
      refine (hinner _ .lowest u (Nat.succ_pos k)).bind fun us v e _ he => ?_
      refine .expect (by decide) fun closed _ hclosed => .pure ?_
      exact .ofPrimary (.group hkind he.1 hclosed)

/-- An operator and the operand behind it, whatever is in front of it. -/
theorem reads_operatorWith {power : Power} {left : Expr} (hlt : power < standard.powerOf t.kind) :
    Reads m k (fun n => standard.operatorWith (inner n) left) t fun us u e =>
      ∃ vs op right, us = t :: vs ∧ (t.kind, op) ∈ (standard.powerOf t.kind).operators ∧
        ExprRead (standard.powerOf t.kind) vs u right ∧
        ¬ (standard.powerOf t.kind = .relational ∧ standard.powerOf u.kind = .relational) ∧
        e = .binary op left right t.span.start none := by
  obtain ⟨hjoins, hpower, op, hop, hmem⟩ := operator_of_lt hlt
  have hkind : t.kind ≠ .eof := by
    intro heof
    rw [heof] at hop
    cases hop
  refine .currentKind ?_
  rw [hjoins, hpower]
  refine .take hkind fun u => ?_
  rw [hop]
  refine (hinner _ _ u (Nat.succ_pos k)).bind fun vs v right hvs hright => .currentKind ?_
  by_cases hchain : standard.powerOf t.kind = .relational ∧ standard.power v.kind = some .relational
  · rw [if_pos hchain]
    -- The comparison could have ended here.
    exact .misplaced ⟨[], anySemicolon, _, .nil, trivial, _, op, right, rfl, hmem,
      ⟨by rw [List.append_nil]; exact hright.1, Nat.not_lt_zero _⟩, nofun, rfl⟩ (by decide)
  · rw [if_neg hchain]
    rw [power_eq_relational_iff] at hchain
    exact .pure ⟨_, op, right, rfl, hmem, by rwa [List.append_nil], hchain, rfl⟩

/-- The operators behind an operand that bind tighter than the power. -/
theorem reads_operators {power : Power} {us : List Token} {left : Expr}
    (hleft : ExprPhrase.Derives us (.expr .signed left)) :
    Reads m k (fun n => foldWhile (fun kind => decide (power < standard.powerOf kind))
      (standard.operatorWith (inner n)) left) t fun vs => ExprRead power (us ++ vs) := by
  have hstart : ExprSoFar power (us ++ []) t left := by
    rw [List.append_nil]
    exact ⟨.signed, hleft, by cases power <;> decide, rank_powerOf_le _⟩
  refine Reads.mono (.foldWhile (I := fun vs v e => ExprSoFar power (us ++ vs) v e) ?_ ?_ hstart) ?_
  · intro vs v e hvs he hmore
    have hlt : power < standard.powerOf v.kind := of_decide_eq_true hmore
    refine (reads_operatorWith hinner hlt).mono ?_
    rintro _ w _ - ⟨ws, op, right, rfl, hop, hright, hchain, rfl⟩
    refine ⟨List.cons_ne_nil _ _, fun _ => ?_⟩
    rw [← List.append_assoc]
    exact he.binary hlt hop hright hchain
  · rintro vs v e ⟨tier, he, htier, -⟩
    exact ⟨anySemicolon, e, trivial, decide_eq_false (Nat.not_lt_zero _), tier, he, htier,
      Nat.zero_le _⟩
  · rintro vs v e - ⟨⟨tier, he, htier, -⟩, hstop⟩
    exact ⟨he.loosen htier, of_decide_eq_false hstop⟩

end Expressions

theorem reads_exprWithin (m : Nat) (power : Power) (t : Token) :
    Reads m 0 (fun n => standard.exprWithin n power) t (ExprRead power) := by
  induction m generalizing power t with
  | zero => exact fun _ => ⟨viable_exprRead power, fun _ _ h => absurd h (Nat.not_lt_zero _)⟩
  | succ m ih =>
      have hinner : ∀ k power u, 0 < k →
          Reads (m + 1) k (fun n => standard.exprWithin (n - 1) power) u (ExprRead power) :=
        fun k power u hk => (ih power u).nested hk
      refine .of_eq (fun us n hn => congrFun (exprWithin_eq standard hn power) (t :: us))
        (.currentKind ?_)
      cases hrule : standard.operand t.kind with
      | none => exact .unexpected (viable_exprRead power)
      | some rule =>
          exact (reads_operand hinner hrule).bind
            fun us u left _ hleft => reads_operators hinner hleft

theorem reads_expr {m k : Nat} (power : Power) {t : Token} :
    Reads m k (fun _ => standard.expr power) t (ExprRead power) :=
  .of_within (expr_apply standard power) fun m => reads_exprWithin m power t

theorem reads_anyExpr {m k : Nat} {t : Token} :
    Reads m k (fun _ => standard.anyExpr) t fun us _ e => e.Derives us :=
  (reads_expr .lowest).mono fun _ _ _ _ he => he.1

theorem reads_place {m k : Nat} {t : Token} :
    Reads m k (fun _ => standard.place) t fun us _ v => v.Derives us :=
  reads_variableWith fun _ power _ _ => reads_expr power

/-! ### Statements -/

/-- What is taken of the tokens by a reader of statements. The reader does not
stop in front of an `else` that could be added to the statement. -/
def StmtRead (us : List Token) (u : Token) (s : Stmt) : Prop :=
  ∃ d, StmtPhrase.Derives .nearest u.span.start us (.stmt s d) ∧ (d = true → u.kind ≠ .elseWord)

theorem viable_stmtRead : Viable StmtRead :=
  ⟨[anySemicolon], anySemicolon, _, by simp [Inside, anySemicolon, Token.Lexical], trivial, false,
    .empty rfl, nofun⟩

section Statements

variable {m k : Nat} {t : Token}

theorem reads_condition {α : Type} {f : Nat → Expr → Parser α} {Q : List Token → Token → α → Prop}
    (h : ∀ k opened us closed u e, 0 < k → opened.kind = .openParen → e.Derives us →
      closed.kind = .closeParen →
        Reads m k (fun n => f n e) u fun vs => Q (opened :: (us ++ closed :: vs))) :
    Reads m k (fun n => standard.condition >>= f n) t Q := by
  have hassoc : ∀ n, (standard.condition >>= f n) = expect .openParen >>= fun _ =>
      standard.anyExpr >>= fun e => expect .closeParen >>= fun _ => f n e := by
    intro n
    simp only [condition, bind_assoc, pure_bind]
  refine .of_eq (fun _ n _ => by rw [hassoc]) ?_
  refine .expect (by decide) fun opened _ hopened => ?_
  refine reads_anyExpr.bind fun us u e _ he => ?_
  refine .expect (by decide) fun closed v hclosed => ?_
  simpa only [List.append_assoc, List.singleton_append] using
    h _ opened us closed v e (by omega) hopened he hclosed

theorem reads_called {name : Token} (hname : name.kind = .identifier) :
    Reads m k (fun _ => standard.called name) t fun us => StmtRead (name :: us) := by
  refine .expect (by decide) fun opened u hopened => ?_
  refine (reads_parenthesised fun k u => reads_anyExpr).bind fun us v arguments _ hus => ?_
  refine .expect (by decide) fun closed _ hclosed => ?_
  refine .expect (by decide) fun mark _ hmark => .pure ⟨false, ?_, nofun⟩
  simpa using StmtPhrase.Derives.call hname hopened hus hclosed hmark

theorem reads_assigned {us : List Token} {target : Variable} (htarget : target.Derives us) :
    Reads m k (fun _ => standard.assigned target) t fun vs => StmtRead (us ++ vs) := by
  refine .expect (by decide) fun mark _ hmark => ?_
  refine reads_anyExpr.bind fun vs _ value _ hvalue => ?_
  refine .expect (by decide) fun closed _ hclosed => .pure ⟨false, ?_, nofun⟩
  simpa using StmtPhrase.Derives.assign htarget hmark hvalue hclosed

/-- A call or an assignment. Which one it is tells the token behind the name,
before the name is taken. -/
theorem reads_callOrAssign (ht : t.kind = .identifier) :
    Reads m k (fun _ => do
      if (← peekKind) = .openParen then standard.callStmt else standard.assignStmt) t StmtRead := by
  have hbehind : ∀ u, Reads m (k + 1) (fun _ => if u.kind = .openParen then standard.called t else
      foldWhile (· == .openBracket) (indexWith standard.expr t.span.start)
        (.named t.value t.span.start none) >>= standard.assigned) u
        fun us => StmtRead (t :: us) := by
    intro u
    split
    · exact reads_called ht
    · exact (reads_indices (fun _ power _ _ => reads_expr power) ht).bind
        fun us v target _ htarget => reads_assigned htarget
  refine .step (by rw [ht]; decide) (fun u us _ => ?_) hbehind
  rw [bind_eq (peekKind_cons_cons t u us)]
  split
  · rw [callStmt_eq]
    exact bind_expect ht (List.cons_ne_nil u us)
  · rw [assignStmt_eq, place, variableWith_eq, bind_assoc]
    exact bind_expect ht (List.cons_ne_nil u us)

/-- Where the brace is missing, it could have been there. -/
theorem reads_beforeEnd {α : Type} {item : Nat → Parser α} {Q : List Token → Token → α → Prop}
    (h : Reads m k item t Q) : Reads m k (fun n => beforeEnd (item n)) t Q := by
  by_cases ht : t.kind = .eof
  · exact fun hlexical =>
      Reads.of_eq (fun us n _ => beforeEnd_of_eof ht) (.unexpected (h hlexical).1) hlexical
  · exact .of_eq (fun us n _ => beforeEnd_cons ht) h

-- The statements inside are read behind a token at least.
variable {inner : Nat → Parser Stmt}
  (hinner : ∀ k u, 0 < k → Reads m k inner u StmtRead)

include hinner

theorem reads_braced (hk : 0 < k) :
    Reads m k (fun n => braced (inner n)) t fun us _ ss => ∃ vs closed, us = vs ++ [closed] ∧
      closed.kind = .closeCurly ∧ StmtPhrase.Derives .nearest closed.span.start vs (.stmts ss) := by
  have hitems : Reads m k (fun n => collectWhile (· != .closeCurly) (beforeEnd (inner n))) t
      fun us u ss => StmtPhrase.Derives .nearest u.span.start us (.stmts ss) ∧
        (u.kind != .closeCurly) = false := by
    refine .collectWhile
      (I := fun us u ss => StmtPhrase.Derives .nearest u.span.start us (.stmts ss))
      ?_ ?_ .nil
    · intro us u ss hus hss _
      refine (reads_beforeEnd (hinner _ u (by omega))).mono ?_
      rintro vs v s - ⟨d, hs, -⟩
      refine ⟨hs.ne_nil, fun hhead => ?_⟩
      obtain ⟨vs, rfl⟩ := List.head?_eq_some_iff.mp hhead
      exact StmtPhrase.Derives.snoc hss hs
    · intro us u ss hss
      exact ⟨⟨.closeCurly, "\x7d", u.span⟩, ss, trivial, rfl, hss⟩
  refine hitems.bind fun us u ss _ hss => ?_
  obtain ⟨hss, hstop⟩ := hss
  have hkind : u.kind = .closeCurly := by simpa using hstop
  refine .step (by rw [hkind]; decide) (fun v vs n => bind_expect hkind (List.cons_ne_nil v vs))
    fun v => .pure ?_
  exact ⟨us, u, rfl, hkind, hss⟩

/-- What is read behind the first branch of an `if`. -/
theorem reads_elseBranch {start opened closed : Token} {us vs : List Token} {e : Expr} {s : Stmt}
    (hstart : start.kind = .ifWord) (hopened : opened.kind = .openParen) (he : e.Derives us)
    (hclosed : closed.kind = .closeParen) (hs : StmtRead vs t s) :
    Reads m k (fun n => elseBranch (inner n)) t fun ws u s' =>
      StmtRead (start :: opened :: (us ++ closed :: (vs ++ ws))) u
        (.conditional e s s' start.span.start) := by
  obtain ⟨d, hs, hd⟩ := hs
  refine .currentKind ?_
  by_cases hkind : t.kind = .elseWord
  · simp only [hkind, if_true]
    -- The statement in front of the `else` was not dangling, for then its reader
    -- would not have stopped there.
    have hnearest : d = false := by
      by_contra hdangling
      exact hd (Bool.eq_true_of_not_eq_false hdangling) hkind
    refine .take (by rw [hkind]; decide) fun u => (hinner _ u (Nat.succ_pos k)).mono ?_
    rintro ws v s' - ⟨d', hs', hd'⟩
    exact ⟨d', .ifElse hstart hopened he hclosed hs (fun _ => hnearest) hkind hs', hd'⟩
  · simp only [hkind, if_false]
    refine .position (.pure ⟨true, ?_, fun _ => hkind⟩)
    rw [List.append_nil]
    exact .ifOnly hstart hopened he hclosed hs

theorem reads_stmtRule {rule : StmtRule} (hrule : standard.statement t.kind = some rule) :
    Reads m k (fun n => rule.readWith standard (inner n)) t StmtRead := by
  have hkind := kind_of_statement hrule
  cases rule with
  | any | call | assign => exact hkind.elim
  | empty => exact .take (by rw [hkind]; decide) fun u => .pure ⟨false, .empty hkind, nofun⟩
  | compound =>
      refine .take (by rw [hkind]; decide) fun u => ?_
      refine (reads_braced hinner (Nat.succ_pos k)).map ?_
      rintro _ v ss - ⟨vs, closed, rfl, hclosed, hss⟩
      exact ⟨false, .compound hkind hss hclosed, nofun⟩
  | conditional =>
      refine .take (by rw [hkind]; decide) fun u => ?_
      refine reads_condition fun k opened us closed v e hk hopened he hclosed => ?_
      refine (hinner k v hk).bind fun vs w s _ hs => ?_
      exact (reads_elseBranch hinner hkind hopened he hclosed hs).map fun ws x s' _ hs' => hs'
  | loop =>
      refine .take (by rw [hkind]; decide) fun u => ?_
      refine reads_condition fun k opened us closed v e hk hopened he hclosed => ?_
      refine (hinner k v hk).map ?_
      rintro vs w s - ⟨d, hs, hd⟩
      exact ⟨d, .loop hkind hopened he hclosed hs, hd⟩
  | callOrAssign => exact reads_callOrAssign hkind

end Statements

theorem reads_stmtWithin (m : Nat) (t : Token) :
    Reads m 0 (fun n => standard.stmtWithin n) t StmtRead := by
  induction m generalizing t with
  | zero => exact fun _ => ⟨viable_stmtRead, fun _ _ h => absurd h (Nat.not_lt_zero _)⟩
  | succ m ih =>
      refine .of_eq (fun us n hn => congrFun (stmtWithin_eq standard hn) (t :: us))
        (.currentKind ?_)
      cases hrule : standard.statement t.kind with
      | none => exact .misplaced viable_stmtRead (by decide)
      | some rule => exact reads_stmtRule (fun k u hk => (ih u).nested hk) hrule

theorem reads_stmt {m k : Nat} {t : Token} : Reads m k (fun _ => standard.stmt) t StmtRead :=
  .of_within (stmt_apply standard) fun m => reads_stmtWithin m t

/-! ### Declarations -/

section Declarations

variable {m k : Nat} {t : Token}

theorem reads_typeDeclaration :
    Reads m k (fun _ => standard.typeDeclaration) t fun us _ d => d.Derives us := by
  refine .expect (by decide) fun start _ hstart => ?_
  refine .expect (by decide) fun name _ hname => ?_
  refine .expect (by decide) fun mark u hmark => ?_
  refine reads_typeExpr.bind fun us v type _ htype => ?_
  exact .expect (by decide) fun closed _ hclosed => .pure (.intro hstart hname hmark htype hclosed)

/-- `name: type`, as in parameters and in variables. -/
theorem reads_typed {α : Type} {f : Token → TypeExpr → Parser α} {Q : List Token → Token → α → Prop}
    (h : ∀ k name mark us u type, name.kind = .identifier → mark.kind = .colon → type.Derives us →
      Reads m k (fun _ => f name type) u fun vs => Q (name :: mark :: (us ++ vs))) :
    Reads m k (fun _ => do
      let name ← expect .identifier
      let _ ← expect .colon
      let type ← standard.typeExpr
      f name type) t Q := by
  refine .expect (by decide) fun name _ hname => ?_
  refine .expect (by decide) fun mark u hmark => ?_
  exact reads_typeExpr.bind fun us v type _ htype => h _ name mark us v type hname hmark htype

theorem reads_parameter :
    Reads m k (fun _ => standard.parameter) t fun us _ p => p.Derives us := by
  refine .currentKind ?_
  dsimp only
  by_cases hkind : t.kind = .refWord
  · simp only [hkind, beq_self_eq_true, if_true]
    refine .take (by rw [hkind]; decide) fun u => ?_
    refine reads_typed fun k name mark us v type hname hmark htype => .pure ?_
    rw [List.append_nil]
    exact .byReference hkind hname hmark htype
  · have hvalue : (t.kind == .refWord) = false := by simpa using hkind
    simp only [hvalue, Bool.false_eq_true, if_false]
    refine reads_typed fun k name mark us v type hname hmark htype => .pure ?_
    rw [List.append_nil]
    exact .byValue hname hmark htype

theorem reads_localVariable :
    Reads m k (fun _ => standard.localVariable) t fun us _ v => v.Derives us := by
  refine .expect (by decide) fun start _ hstart => ?_
  refine reads_typed fun k name mark us v type hname hmark htype => ?_
  exact .expect (by decide) fun closed _ hclosed => .pure (.intro hstart hname hmark htype hclosed)

theorem reads_procedure :
    Reads m k (fun _ => standard.procedure) t fun us _ p => p.Derives .nearest us := by
  refine .expect (by decide) fun start _ hstart => ?_
  refine .expect (by decide) fun name _ hname => ?_
  refine .expect (by decide) fun opened u hopened => ?_
  refine (reads_parenthesised fun k u => reads_parameter).bind fun us _ parameters _ hus => ?_
  refine .expect (by decide) fun closed _ hclosed => ?_
  refine .expect (by decide) fun opened' v hopened' => ?_
  refine (reads_sequence (D := fun us v => LocalVariable.Derives us v) (v := anySemicolon) trivial
    rfl fun k u _ => reads_localVariable.mono fun us v x _ hx => ⟨hx.ne_nil, hx⟩).bind
      fun vs w locals _ hvs => ?_
  refine (reads_braced (fun k u _ => reads_stmt) (by omega)).map ?_
  rintro _ x body - ⟨ws, closed', rfl, hclosed', hbody⟩
  simpa using Procedure.Derives.intro hstart hname hopened hus hclosed hopened' hvs.1 hbody hclosed'

theorem viable_declaration : Viable fun us _ (d : Declaration) => d.Derives .nearest us := by
  obtain ⟨us, u, d, hus, hu, hd⟩ :=
    (reads_typeDeclaration (m := 0) (k := 0) (t := anySemicolon) trivial).1
  exact ⟨us, u, .type d, hus, hu, .type hd⟩

theorem reads_declaration :
    Reads m k (fun _ => standard.declaration) t fun us _ d => d.Derives .nearest us := by
  refine .currentKind ?_
  split
  · exact reads_typeDeclaration.map fun us u d _ hd => .type hd
  · exact reads_procedure.map fun us u d _ hd => .procedure hd
  · exact .misplaced viable_declaration (by decide)

end Declarations

/-! ### Programs -/

/-- Declarations are read up to the first mark of the end. -/
theorem reads_program (file : String) {m k : Nat} {t : Token} :
    Reads m k (fun _ => standard.program file) t fun us u p =>
      Program.Derives .nearest us p.declarations ∧ p.span = ⟨⟨0, file⟩, u.span.start⟩ ∧
        u.kind = .eof := by
  refine (reads_sequence (D := Declaration.Derives .nearest) (v := ⟨.eof, "EOF", .null, .null⟩)
    trivial rfl fun k u _ => reads_declaration.mono fun us v d _ hd => ⟨hd.ne_nil, hd⟩).bind ?_
  rintro us u declarations - ⟨hds, hstop⟩
  refine .position (.pure ⟨?_, rfl, by simpa using hstop⟩)
  rwa [List.append_nil]

theorem reacts_program (file : String) {ts : List Token} (h : Closed ts) :
    Reacts 0 (fun _ => standard.program file) (fun us u p =>
      Program.Derives .nearest us p.declarations ∧ p.span = ⟨⟨0, file⟩, u.span.start⟩ ∧
        u.kind = .eof) ts := by
  cases ts with
  | nil => cases h
  | cons t ts => exact Reads.reacts (fun _ => reads_program file) h

/-- Where a program was read, its declarations are derived from all tokens but
the last. -/
theorem runs_program (file : String) {ts : List Token} (h : Legible ts) :
    Runs (standard.program file) ts fun p rest => ∃ pre eof, ts = pre ++ [eof] ∧
      Program.Derives .nearest pre p.declarations ∧
      p.span = ⟨⟨0, file⟩, eof.span.start⟩ ∧ rest = [eof] := by
  refine ((reacts_program file h.closed).runs (Nat.le_refl _)).mono ?_
  rintro p _ ⟨pre, eof, post, rfl, rfl, -, hderives, hspan, heof⟩
  obtain rfl := h.eq_nil_of_eof heof
  exact ⟨pre, eof, rfl, hderives, hspan, rfl⟩

end Grammar

end Spl
