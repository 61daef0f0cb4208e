import Spl.Proofs.Parser.Steps
import Spl.Proofs.Syntax.Standard
import Spl.Program.Parser

/-!
Completeness of the readers. In front of any token that cannot belong to it, a
phrase of the grammar is read, and all of it: each reader answers the phrase
and leaves the tokens behind it.

An expression that was derived may turn out to be the left operand of a longer
one. So what is proved of expressions is how reading goes on from them, whatever
it ends with.
-/

namespace Spl

namespace Parser

variable {α : Type} {t : Token} {ts us : List Token} {more : TokenKind → Bool} {item : Parser α}

/-! ### Lists

What follows an item is the beginning of the next one or the end of the list, so
it is enough if an item is read in front of these. -/

variable {D : List Token → α → Prop} {F : TokenKind → Prop} {xs : List α}

variable (more F) in
theorem exists_next_of_sequence
    (start : ∀ ts x, D ts x → ∃ t us, ts = t :: us ∧ more t.kind = true ∧ F t.kind)
    (h : Sequence D ts xs) (ht : F t.kind) : ∃ u vs, ts ++ t :: us = u :: vs ∧ F u.kind := by
  cases h with
  | nil => exact ⟨t, us, rfl, ht⟩
  | cons head tail =>
      obtain ⟨u, vs, rfl, -, hu⟩ := start _ _ head
      exact ⟨u, _, rfl, hu⟩

theorem collectWhile_of_sequence
    (start : ∀ ts x, D ts x → ∃ t us, ts = t :: us ∧ more t.kind = true ∧ F t.kind)
    (hitem : ∀ ts x t us, D ts x → (∀ t ∈ ts, t.Lexical) → F t.kind →
      item (ts ++ t :: us) = .ok x (t :: us))
    (h : Sequence D ts xs) (hts : ∀ t ∈ ts, t.Lexical) (hmore : more t.kind = false)
    (ht : F t.kind) : collectWhile more item (ts ++ t :: us) = .ok xs (t :: us) := by
  induction h with
  | nil => exact collectWhile_stop hmore
  | @cons ts vs x xs head tail ih =>
      obtain ⟨hts, hvs⟩ := List.forall_mem_append.mp hts
      have htail := ih hvs
      -- The item is read in front of the next one or in front of the end.
      obtain ⟨u, ws, hnext, hu⟩ := exists_next_of_sequence more F start tail ht
      have hread := hitem ts x u ws head hts hu
      obtain ⟨t', ts, rfl, hmore', -⟩ := start ts x head
      rw [hnext] at htail
      rw [List.append_assoc, hnext]
      exact collectWhile_step hmore' hread (by simp) htail

theorem parenthesised_of_separated
    (start : ∀ ts x, D ts x → ∃ t us, ts = t :: us ∧ t.kind ≠ .closeParen)
    (hitem : ∀ ts x t us, D ts x → (∀ t ∈ ts, t.Lexical) → t.kind = .comma ∨ t.kind = .closeParen →
      item (ts ++ t :: us) = .ok x (t :: us))
    (h : Separated D ts xs) (hts : ∀ t ∈ ts, t.Lexical) (ht : t.kind = .closeParen) :
    parenthesised item (ts ++ t :: us) = .ok xs (t :: us) := by
  cases h with
  | none =>
      rw [List.nil_append, parenthesised, bind_currentKind, if_pos ht]
      rfl
  | @some ts vs x xs first others =>
      obtain ⟨hts, hvs⟩ := List.forall_mem_append.mp hts
      have hcomma : ∀ ts x, AfterComma D ts x → ∃ t us, ts = t :: us ∧ (t.kind == .comma) = true ∧
          (t.kind = .comma ∨ t.kind = .closeParen) := by
        rintro _ x ⟨hmark, -⟩
        exact ⟨_, _, rfl, by rw [hmark]; rfl, .inl hmark⟩
      have hothers : collectWhile (· == .comma) (do let _ ← take; item) (vs ++ t :: us) =
          .ok xs (t :: us) := by
        refine collectWhile_of_sequence (D := AfterComma D)
          (F := fun k => k = .comma ∨ k = .closeParen) hcomma ?_ others hvs (by rw [ht]; rfl)
          (.inr ht)
        rintro _ x t us ⟨hmark, hx⟩ hts hnext
        rw [List.cons_append, bind_take (by simp)]
        exact hitem _ x t us hx (List.forall_mem_cons.mp hts).2 hnext
      obtain ⟨u, ws, hnext, hu⟩ :=
        exists_next_of_sequence (· == .comma) (fun k => k = .comma ∨ k = .closeParen) hcomma others
          (.inr ht)
      have hread := hitem ts x u ws first hts hu
      obtain ⟨t', ts, rfl, ht'⟩ := start ts x first
      rw [hnext] at hothers
      rw [List.cons_append] at hread
      rw [List.append_assoc, hnext, List.cons_append]
      rw [parenthesised, bind_currentKind, if_neg ht', bind_eq hread, bind_eq hothers]
      rfl

end Parser

open Spl.Parser

namespace Grammar

/-! ### Types -/

theorem arraySize_cons {size : Token} {us : List Token} {n : Int32} (hlexical : size.Lexical)
    (hsize : size.Denotes n) (hsign : 0 ≤ n) (hus : us ≠ []) :
    arraySize (size :: us) = .ok n.toUInt32 us := by
  rw [arraySize, bind_take hus, Literal.size_of_denotes hlexical hsize hsign]
  rfl

theorem typeWithin_of_derives {ts : List Token} {e : TypeExpr} (h : e.Derives ts)
    (hts : ∀ t ∈ ts, t.Lexical) {n : Nat} (hn : ts.length ≤ n) (t : Token) (us : List Token) :
    standard.typeWithin (n + 1) (ts ++ t :: us) = .ok e (t :: us) := by
  induction h generalizing n with
  | @named name hname =>
      rw [List.singleton_append, typeWithin, bind_currentKind, hname, type_standard]
      dsimp only
      rw [TypeRule.readWith, bind_expect hname (List.cons_ne_nil _ _)]
      rfl
  | @array start opened size closed mark ts m e hstart hopened hsize hsign hclosed hmark helement
      ih =>
      simp only [List.forall_mem_cons] at hts
      obtain ⟨-, -, hlexical, -, -, hts⟩ := hts
      obtain ⟨n, rfl⟩ := Nat.exists_eq_add_of_le' (Nat.le_trans (Nat.le_add_left 1 _) hn)
      simp only [List.length_cons] at hn
      simp only [List.cons_append]
      rw [typeWithin, bind_currentKind, hstart, type_standard]
      dsimp only
      rw [TypeRule.readWith, bind_expect hstart (List.cons_ne_nil _ _),
        bind_expect hopened (List.cons_ne_nil _ _),
        bind_eq (arraySize_cons hlexical hsize hsign (List.cons_ne_nil _ _)),
        bind_expect hclosed (List.cons_ne_nil _ _), bind_expect hmark (by simp),
        bind_eq (ih hts (by omega))]
      rfl

theorem typeExpr_of_derives {ts : List Token} {e : TypeExpr} (h : e.Derives ts)
    (hts : ∀ t ∈ ts, t.Lexical) (t : Token) (us : List Token) :
    standard.typeExpr (ts ++ t :: us) = .ok e (t :: us) := by
  rw [typeExpr_apply]
  exact typeWithin_of_derives h hts (by simp; omega) t us

/-! ### Expressions -/

/-- The operators behind an expression that bind tighter than a power. -/
def operatorsWithin (n : Nat) (power : Power) : Expr → Parser Expr :=
  foldWhile (fun kind => decide (power < standard.powerOf kind))
    (standard.operatorWith (standard.exprWithin n))

/-- A token that can follow an expression of the level without making it longer. -/
structure Follows (tier : Tier) (k : TokenKind) : Prop where
  bracket : k ≠ .openBracket
  power : (standard.powerOf k).rank ≤ tier.bound.rank

/-- The reader reads every expression of less than `n` tokens, in front of what
does not bind tighter than the power that it is asked for. -/
def ReadsBelow (n : Nat) (inner : Power → Parser Expr) : Prop :=
  ∀ ⦃ts : List Token⦄ ⦃tier : Tier⦄ ⦃e : Expr⦄ ⦃power : Power⦄ ⦃t : Token⦄ ⦃us : List Token⦄,
    ExprPhrase.Derives ts (.expr tier e) → (∀ t ∈ ts, t.Lexical) → ts.length < n →
    power.tier.rank ≤ tier.rank → Follows tier t.kind → ¬ power < standard.powerOf t.kind →
    inner power (ts ++ t :: us) = .ok e (t :: us)

/-- Nothing follows an expression in brackets that it could go on with. -/
theorem ReadsBelow.enclosed {n : Nat} {inner : Power → Parser Expr} (h : ReadsBelow n inner)
    {ts us : List Token} {e : Expr} {t : Token} (he : e.Derives ts) (hts : ∀ t ∈ ts, t.Lexical)
    (hn : ts.length < n) (ht : Follows .comparison t.kind) :
    inner .lowest (ts ++ t :: us) = .ok e (t :: us) :=
  h he hts hn (by decide) ht (Nat.not_lt.mpr ht.power)

theorem follows_closeParen : Follows .comparison .closeParen := ⟨by decide, by decide⟩

theorem follows_closeBracket : Follows .comparison .closeBracket := ⟨by decide, by decide⟩

theorem follows_comma : Follows .comparison .comma := ⟨by decide, by decide⟩

theorem follows_semicolon : Follows .comparison .semicolon := ⟨by decide, by decide⟩

/-! #### Variables -/

theorem goesOn_variableWith {n : Nat} {inner : Power → Parser Expr} (hinner : ReadsBelow n inner)
    {ts us out : List Token} {t : Token} {v b : Variable} (h : v.Derives ts)
    (hts : ∀ t ∈ ts, t.Lexical) (hn : ts.length ≤ n)
    (hout : foldWhile (· == .openBracket) (indexWith inner v.position) v (t :: us) = .ok b out) :
    variableWith inner (ts ++ t :: us) = .ok b out := by
  unfold Variable.Derives at h
  generalize hphrase : ExprPhrase.place v = phrase at h
  induction h generalizing v t us with
  | named hname =>
      cases hphrase
      rw [List.singleton_append, variableWith_eq, bind_expect hname (List.cons_ne_nil _ _)]
      exact hout
  | @element ts vs opened closed array index _ hopened hindex hclosed iharray _ =>
      cases hphrase
      obtain ⟨harray, hlexical⟩ := List.forall_mem_append.mp hts
      obtain ⟨hlexical, -⟩ := List.forall_mem_append.mp (List.forall_mem_cons.mp hlexical).2
      simp only [List.length_cons, List.length_append] at hn
      have hread : inner .lowest (vs ++ closed :: t :: us) = .ok index (closed :: t :: us) :=
        hinner.enclosed hindex hlexical (by omega) (by rw [hclosed]; exact follows_closeBracket)
      rw [List.append_assoc, List.cons_append, List.append_assoc, List.singleton_append]
      refine iharray harray (by omega) ?_ rfl
      have hstep : indexWith inner array.position array (opened :: (vs ++ closed :: t :: us)) =
          .ok (.element array index array.position none) (t :: us) := by
        rw [indexWith, bind_take (by simp), bind_eq hread,
          bind_expect hclosed (List.cons_ne_nil _ _)]
        rfl
      exact foldWhile_step (by rw [hopened]; rfl) hstep (by simp; omega) trivial hout
  | _ => cases hphrase

theorem variableWith_of_derives {n : Nat} {inner : Power → Parser Expr}
    (hinner : ReadsBelow n inner) {ts us : List Token} {t : Token} {v : Variable}
    (h : v.Derives ts) (hts : ∀ t ∈ ts, t.Lexical) (hn : ts.length ≤ n)
    (ht : t.kind ≠ .openBracket) :
    variableWith inner (ts ++ t :: us) = .ok v (t :: us) :=
  goesOn_variableWith hinner h hts hn (foldWhile_stop (by simpa using ht))

/-! #### Operands and operators -/

/-- An operand is where an expression starts, generally speaking. -/
theorem exprWithin_of_operand {g : Grammar} {n : Nat} {power : Power} (rule : OperandRule)
    {t : Token} {ts mid out : List Token} {e b : Expr} (hrule : g.operand t.kind = some rule)
    (hread : rule.readWith (g.exprWithin n) (t :: ts) = .ok e mid)
    (hfold : foldWhile (fun kind => decide (power < g.powerOf kind))
      (g.operatorWith (g.exprWithin n)) e mid = .ok b out) :
    g.exprWithin (n + 1) power (t :: ts) = .ok b out := by
  rw [Grammar.exprWithin, bind_currentKind, hrule]
  dsimp only
  rw [bind_eq hread, hfold]

theorem operatorWith_cons {inner : Power → Parser Expr} {power : Power} {mark t : Token}
    {op : BinaryOp} {left right : Expr} {ts us : List Token}
    (hop : (mark.kind, op) ∈ power.operators) (hts : ts ≠ [])
    (hright : inner power ts = .ok right (t :: us))
    (hchain : ¬ (power = .relational ∧ standard.power t.kind = some .relational)) :
    standard.operatorWith inner left (mark :: ts) =
      .ok (.binary op left right mark.span.start none) (t :: us) := by
  obtain ⟨-, hpower, hjoins, hbinary⟩ := powerOf_of_mem hop
  rw [operatorWith, bind_currentKind, hjoins, hpower]
  dsimp only
  rw [binaryWith, bind_take hts, hbinary]
  dsimp only
  rw [bind_eq hright, bind_currentKind, if_neg hchain]
  rfl

/-- The tokens are read as the expression, and reading goes on behind it. -/
def GoesOn (n : Nat) (ts : List Token) : ExprPhrase → Prop
  | .expr tier e => ∀ ⦃power : Power⦄ ⦃t : Token⦄ ⦃us : List Token⦄ ⦃b : Expr⦄ ⦃out : List Token⦄,
      power.tier.rank ≤ tier.rank → Follows tier t.kind →
      operatorsWithin n power e (t :: us) = .ok b out →
      standard.exprWithin (n + 1) power (ts ++ t :: us) = .ok b out
  | .place _ => True

theorem GoesOn.loosen {n : Nat} {ts : List Token} {tier tier' : Tier} {e : Expr}
    (h : GoesOn n ts (.expr tier e)) (hrank : tier'.rank ≤ tier.rank)
    (hbound : tier'.bound.rank ≤ tier.bound.rank) : GoesOn n ts (.expr tier' e) := by
  intro power t us b out htier ht
  exact h (Nat.le_trans htier hrank) ⟨ht.bracket, Nat.le_trans ht.power hbound⟩

/-- Behind the left operand reading goes on with the operator. -/
theorem GoesOn.binary {n : Nat} (hinner : ReadsBelow n (standard.exprWithin n)) (power : Power)
    {tier : Tier} {ts us : List Token} {mark : Token} {op : BinaryOp} {left right : Expr}
    (hop : (mark.kind, op) ∈ power.operators) (hrank : power.result.rank ≤ tier.rank)
    (hbound : power.rank ≤ tier.bound.rank) (hlexical : ∀ t ∈ ts ++ mark :: us, t.Lexical)
    (hn : (ts ++ mark :: us).length ≤ n)
    (hleft : (∀ t ∈ ts, t.Lexical) → ts.length ≤ n → GoesOn n ts (.expr tier left))
    (hright : ExprPhrase.Derives us (.expr power.tier right)) :
    GoesOn n (ts ++ mark :: us)
      (.expr power.result (.binary op left right mark.span.start none)) := by
  intro context t vs b out htier ht hout
  obtain ⟨hts, hus⟩ := List.forall_mem_append.mp hlexical
  rw [List.length_append, List.length_cons] at hn
  obtain ⟨hpowerOf, -, -, -⟩ := powerOf_of_mem hop
  -- What stops the whole stops the right operand, too.
  obtain ⟨hstop, hchain, hfollow⟩ := Power.stops_of_rank_le hop ht.power
  have hread : standard.exprWithin n power (us ++ t :: vs) = .ok right (t :: vs) :=
    hinner hright (List.forall_mem_cons.mp hus).2 (by omega) (Nat.le_refl _)
      ⟨ht.bracket, hfollow⟩ hstop
  have hlt : context < standard.powerOf mark.kind := by
    rw [hpowerOf]
    exact (Power.lt_iff_tier_rank_le hop).mpr htier
  have hmark : Follows tier mark.kind := by
    refine ⟨?_, by rwa [hpowerOf]⟩
    intro hkind
    rw [hkind] at hlt
    exact absurd hlt (Nat.not_lt_zero _)
  rw [List.append_assoc, List.cons_append]
  refine hleft hts (by omega) (Nat.le_trans htier hrank) hmark ?_
  refine foldWhile_step (decide_eq_true hlt) (operatorWith_cons hop (by simp) hread ?_) (by simp)
    trivial hout
  rwa [power_eq_relational_iff]

/-- Reading goes on behind each expression, the inner ones of which are read. -/
theorem goesOn_of_derives {n : Nat} (hinner : ReadsBelow n (standard.exprWithin n))
    {phrase : ExprPhrase} {ts : List Token} (h : phrase.Derives ts) (hts : ∀ t ∈ ts, t.Lexical)
    (hn : ts.length ≤ n) : GoesOn n ts phrase := by
  induction h with
  -- The right operands are read by the reader within. It is the left ones that
  -- the induction is for.
  | comparison _ hop hright ihleft _ =>
      exact GoesOn.binary hinner .relational hop (by decide) (by decide) hts hn ihleft hright
  | sum _ hop hright ihleft _ =>
      exact GoesOn.binary hinner .additive hop (by decide) (by decide) hts hn ihleft hright
  | product _ hop hright ihleft _ =>
      exact GoesOn.binary hinner .multiplicative hop (by decide) (by decide) hts hn ihleft hright
  | ofSum _ ih | ofProduct _ ih | ofSigned _ ih | ofPrimary _ ih =>
      exact (ih hts hn).loosen (by decide) (by decide)
  | @negation sign ts e hsign h _ =>
      intro power t us b out _ ht hout
      have hread : standard.exprWithin n .unary (ts ++ t :: us) = .ok e (t :: us) :=
        hinner h (List.forall_mem_cons.mp hts).2 hn (by decide) ht
          (Nat.not_lt.mpr (Nat.le_trans ht.power (by decide)))
      rw [List.cons_append]
      refine exprWithin_of_operand .negation (by rw [hsign]; rfl) ?_ hout
      rw [OperandRule.readWith, bind_take (by simp), bind_eq hread]
      rfl
  | @literal t n hdenotes =>
      intro power u us b out _ ht hout
      have hrule : standard.operand t.kind = some .literal := by
        cases hdenotes with
        | decimal hkind _ _ | hexadecimal hkind _ _ _ | newline hkind _ | character hkind _ =>
            rw [hkind]
            rfl
      rw [List.singleton_append]
      refine exprWithin_of_operand .literal hrule ?_ hout
      rw [OperandRule.readWith, intLiteral, bind_take (List.cons_ne_nil _ _),
        Literal.value_of_denotes (List.forall_mem_singleton.mp hts) hdenotes]
      rfl
  | @read ts v hv _ =>
      intro power t us b out _ ht hout
      obtain ⟨name, ts, rfl, hname, -⟩ := hv.exists_name
      have hread : variableWith (standard.exprWithin n) (name :: ts ++ t :: us) = .ok v (t :: us) :=
        variableWith_of_derives hinner hv hts hn ht.bracket
      rw [List.cons_append] at hread ⊢
      refine exprWithin_of_operand .var (by rw [hname]; rfl) ?_ hout
      rw [OperandRule.readWith, bind_eq hread]
      rfl
  | @group opened closed ts e hopened he hclosed _ =>
      intro power t us b out _ ht hout
      obtain ⟨hts, -⟩ := List.forall_mem_append.mp (List.forall_mem_cons.mp hts).2
      simp only [List.length_cons, List.length_append] at hn
      have hread : standard.exprWithin n .lowest (ts ++ closed :: t :: us) =
          .ok e (closed :: t :: us) :=
        hinner.enclosed he hts (by omega) (by rw [hclosed]; exact follows_closeParen)
      rw [List.cons_append, List.append_assoc, List.singleton_append]
      refine exprWithin_of_operand .group (by rw [hopened]; rfl) ?_ hout
      rw [OperandRule.readWith, bind_take (by simp), bind_eq hread,
        bind_expect hclosed (List.cons_ne_nil _ _)]
      rfl
  | named | element => trivial

/-! #### Whole expressions -/

theorem readsBelow_exprWithin (n : Nat) : ReadsBelow n (standard.exprWithin n) := by
  induction n with
  | zero => exact fun _ _ _ _ _ _ _ _ hn => absurd hn (Nat.not_lt_zero _)
  | succ n ih =>
      intro ts tier e power t us he hts hn htier ht hstop
      exact goesOn_of_derives ih he hts (Nat.le_of_lt_succ hn) htier ht
        (foldWhile_stop (decide_eq_false hstop))

theorem readsBelow_expr (n : Nat) : ReadsBelow n standard.expr := by
  intro ts tier e power t us he hts _ htier ht hstop
  rw [expr_apply]
  exact readsBelow_exprWithin _ he hts (by simp; omega) htier ht hstop

theorem anyExpr_of_derives {ts us : List Token} {e : Expr} {t : Token} (he : e.Derives ts)
    (hts : ∀ t ∈ ts, t.Lexical) (ht : Follows .comparison t.kind) :
    standard.anyExpr (ts ++ t :: us) = .ok e (t :: us) :=
  (readsBelow_expr (ts.length + 1)).enclosed he hts (Nat.lt_succ_self _) ht

theorem place_of_derives {ts us : List Token} {v : Variable} {t : Token} (hv : v.Derives ts)
    (hts : ∀ t ∈ ts, t.Lexical) (ht : t.kind ≠ .openBracket) :
    standard.place (ts ++ t :: us) = .ok v (t :: us) :=
  variableWith_of_derives (readsBelow_expr ts.length) hv hts (Nat.le_refl _) ht

/-! ### Statements -/

theorem condition_of_derives {opened closed : Token} {ts us : List Token} {e : Expr}
    (hopened : opened.kind = .openParen) (he : e.Derives ts) (hts : ∀ t ∈ ts, t.Lexical)
    (hclosed : closed.kind = .closeParen) (hus : us ≠ []) :
    standard.condition (opened :: (ts ++ closed :: us)) = .ok e us := by
  have hread : standard.anyExpr (ts ++ closed :: us) = .ok e (closed :: us) :=
    anyExpr_of_derives he hts (by rw [hclosed]; exact follows_closeParen)
  rw [condition, bind_expect hopened (by simp), bind_eq hread, bind_expect hclosed hus]
  rfl

theorem expr_start {ts : List Token} {e : Expr} (he : e.Derives ts) :
    ∃ t us, ts = t :: us ∧ t.kind ≠ .closeParen := by
  obtain ⟨t, us, hts, hoperand⟩ := ExprPhrase.Derives.exists_operand he
  refine ⟨t, us, hts, fun hkind => ?_⟩
  rw [hkind] at hoperand
  cases hoperand

theorem callStmt_of_derives {name opened closed mark : Token} {ts us : List Token} {es : List Expr}
    (hname : name.kind = .identifier) (hopened : opened.kind = .openParen)
    (harguments : Separated (fun ts e => e.Derives ts) ts es) (hts : ∀ t ∈ ts, t.Lexical)
    (hclosed : closed.kind = .closeParen) (hmark : mark.kind = .semicolon) (hus : us ≠ []) :
    standard.callStmt (name :: opened :: (ts ++ closed :: mark :: us)) =
      .ok (.call name.value es name.span.start) us := by
  have hread : parenthesised standard.anyExpr (ts ++ closed :: mark :: us) =
      .ok es (closed :: mark :: us) := by
    refine parenthesised_of_separated (fun ts e he => expr_start he) ?_ harguments hts hclosed
    intro ts e t us he hts ht
    refine anyExpr_of_derives he hts ?_
    rcases ht with ht | ht <;> rw [ht]
    · exact follows_comma
    · exact follows_closeParen
  rw [callStmt, bind_expect hname (by simp), bind_expect hopened (by simp), bind_eq hread,
    bind_expect hclosed (List.cons_ne_nil _ _), bind_expect hmark hus]
  rfl

theorem assignStmt_of_derives {mark closed : Token} {ts us vs : List Token} {v : Variable}
    {e : Expr} (hv : v.Derives ts) (hts : ∀ t ∈ ts, t.Lexical) (hmark : mark.kind = .assignment)
    (he : e.Derives us) (hus : ∀ t ∈ us, t.Lexical) (hclosed : closed.kind = .semicolon)
    (hvs : vs ≠ []) :
    standard.assignStmt (ts ++ mark :: (us ++ closed :: vs)) =
      .ok (.assign v e mark.span.start) vs := by
  have htarget : standard.place (ts ++ mark :: (us ++ closed :: vs)) =
      .ok v (mark :: (us ++ closed :: vs)) :=
    place_of_derives hv hts (by rw [hmark]; decide)
  have hvalue : standard.anyExpr (us ++ closed :: vs) = .ok e (closed :: vs) :=
    anyExpr_of_derives he hus (by rw [hclosed]; exact follows_semicolon)
  rw [assignStmt, bind_eq htarget, bind_expect hmark (by simp), bind_eq hvalue,
    bind_expect hclosed hvs]
  rfl

theorem stmtWithin_of_rule {g : Grammar} {n : Nat} (rule : StmtRule) {t : Token} {ts : List Token}
    (hrule : g.statement t.kind = some rule) :
    g.stmtWithin (n + 1) (t :: ts) = rule.readWith g (g.stmtWithin n) (t :: ts) := by
  rw [stmtWithin, bind_currentKind, hrule]

/-- The reader reads every statement of less than `n` tokens, in front of any
token but an `else` that could be added to the statement. -/
def StmtsBelow (n : Nat) (inner : Parser Stmt) : Prop :=
  ∀ ⦃next : Position⦄ ⦃ts : List Token⦄ ⦃s : Stmt⦄ ⦃d : Bool⦄ ⦃t : Token⦄ ⦃us : List Token⦄,
    StmtPhrase.Derives .nearest next ts (.stmt s d) → (∀ t ∈ ts, t.Lexical) → ts.length < n →
    t.span.start = next → (d = true → t.kind ≠ .elseWord) → inner (ts ++ t :: us) = .ok s (t :: us)

/-- What follows a statement among others is where the tokens behind it start,
and belongs neither to it nor to declarations of variables. -/
theorem exists_next_of_stmts {rule : ElseRule} {next : Position} {ts : List Token} {t : Token}
    (us : List Token) {ss : List Stmt} (h : StmtPhrase.Derives rule next ts (.stmts ss))
    (ht : t.span.start = next) (hkind : t.kind = .closeCurly) :
    ∃ u vs, ts ++ t :: us = u :: vs ∧ u.span.start = startOf next ts ∧ u.kind ≠ .elseWord ∧
      u.kind ≠ .varWord := by
  cases h with
  | nil => exact ⟨t, us, rfl, ht, by rw [hkind]; decide, by rw [hkind]; decide⟩
  | cons head _ =>
      obtain ⟨u, vs, rfl, hu⟩ := head.exists_statement
      exact ⟨u, _, rfl, rfl, kind_ne_of_statement hu rfl, kind_ne_of_statement hu rfl⟩

theorem collectWhile_of_stmts {n : Nat} {inner : Parser Stmt} (hinner : StmtsBelow n inner)
    {next : Position} {ts us : List Token} {ss : List Stmt} {t : Token}
    (h : StmtPhrase.Derives .nearest next ts (.stmts ss)) (hts : ∀ t ∈ ts, t.Lexical)
    (hn : ts.length < n) (ht : t.span.start = next) (hkind : t.kind = .closeCurly) :
    collectWhile (· != .closeCurly) (beforeEnd inner) (ts ++ t :: us) = .ok ss (t :: us) := by
  generalize hphrase : StmtPhrase.stmts ss = phrase at h
  induction h generalizing ss with
  | nil =>
      cases hphrase
      exact collectWhile_stop (by rw [hkind]; rfl)
  | @cons next ts vs s d ss head tail _ ih =>
      cases hphrase
      obtain ⟨hts, hvs⟩ := List.forall_mem_append.mp hts
      rw [List.length_append] at hn
      obtain ⟨u, ws, hnext, hposition, helse, -⟩ := exists_next_of_stmts us tail ht hkind
      have hhead : inner (ts ++ u :: ws) = .ok s (u :: ws) :=
        hinner head hts (by omega) hposition fun _ => helse
      have htail := ih hvs (by omega) ht rfl
      obtain ⟨t', ts, rfl, hstatement⟩ := head.exists_statement
      have hclosed : t'.kind ≠ .closeCurly := kind_ne_of_statement hstatement rfl
      have heof : t'.kind ≠ .eof := kind_ne_of_statement hstatement rfl
      rw [hnext] at htail
      rw [List.append_assoc, hnext]
      exact collectWhile_step (bne_iff_ne.mpr hclosed) ((beforeEnd_cons heof).trans hhead)
        (by simp) htail
  | _ => cases hphrase

theorem braced_of_stmts {n : Nat} {inner : Parser Stmt} (hinner : StmtsBelow n inner)
    {ts us : List Token} {ss : List Stmt} {closed : Token}
    (h : StmtPhrase.Derives .nearest closed.span.start ts (.stmts ss)) (hts : ∀ t ∈ ts, t.Lexical)
    (hn : ts.length < n) (hclosed : closed.kind = .closeCurly) (hus : us ≠ []) :
    braced inner (ts ++ closed :: us) = .ok ss us := by
  rw [braced_eq, bind_eq (collectWhile_of_stmts hinner h hts hn rfl hclosed),
    bind_expect hclosed hus]
  rfl

/-- Each statement is read, if the statements inside of it are. -/
theorem stmtWithin_of_derives {n : Nat} (hinner : StmtsBelow n (standard.stmtWithin n))
    {next : Position} {ts us : List Token} {s : Stmt} {d : Bool} {t : Token}
    (h : StmtPhrase.Derives .nearest next ts (.stmt s d)) (hts : ∀ t ∈ ts, t.Lexical)
    (hn : ts.length ≤ n) (ht : t.span.start = next) (hdangling : d = true → t.kind ≠ .elseWord) :
    standard.stmtWithin (n + 1) (ts ++ t :: us) = .ok s (t :: us) := by
  cases h with
  | empty hkind =>
      rw [List.singleton_append, stmtWithin_of_rule .empty (by rw [hkind]; rfl),
        StmtRule.readWith, bind_take (List.cons_ne_nil _ _)]
      rfl
  | @compound _ opened closed ts ss hopened hss hclosed =>
      obtain ⟨hts, -⟩ := List.forall_mem_append.mp (List.forall_mem_cons.mp hts).2
      simp only [List.length_cons, List.length_append] at hn
      have hbraced := braced_of_stmts hinner hss hts (by omega) hclosed (List.cons_ne_nil t us)
      simp only [List.cons_append, List.append_assoc, List.nil_append]
      rw [stmtWithin_of_rule .compound (by rw [hopened]; rfl), StmtRule.readWith,
        bind_take (by simp), bind_eq hbraced]
      rfl
  | @assign _ mark closed ts vs v e hv hmark he hclosed =>
      obtain ⟨hts, hvs⟩ := List.forall_mem_append.mp hts
      obtain ⟨hvs, -⟩ := List.forall_mem_append.mp (List.forall_mem_cons.mp hvs).2
      have hread := assignStmt_of_derives hv hts hmark he hvs hclosed (List.cons_ne_nil t us)
      obtain ⟨name, ts, rfl, hname, hindex⟩ := ExprPhrase.Derives.exists_name hv
      simp only [List.cons_append, List.append_assoc, List.nil_append] at hread ⊢
      rw [stmtWithin_of_rule .callOrAssign (by rw [hname]; rfl), StmtRule.readWith]
      -- An assignment is told from a call by the token behind the name, which is
      -- an opening bracket or the mark.
      cases ts with
      | nil =>
          rw [List.nil_append] at hread ⊢
          rw [bind_eq (peekKind_cons_cons ..), if_neg (by rw [hmark]; decide), hread]
      | cons u ts =>
          rw [List.cons_append] at hread ⊢
          rw [bind_eq (peekKind_cons_cons ..), if_neg (by rw [hindex u ts rfl]; decide), hread]
  | call hname hopened harguments hclosed hmark =>
      obtain ⟨hts, -⟩ := List.forall_mem_append.mp
        (List.forall_mem_cons.mp (List.forall_mem_cons.mp hts).2).2
      simp only [List.cons_append, List.append_assoc, List.nil_append]
      rw [stmtWithin_of_rule .callOrAssign (by rw [hname]; rfl), StmtRule.readWith,
        bind_eq (peekKind_cons_cons ..), if_pos hopened,
        callStmt_of_derives hname hopened harguments hts hclosed hmark (List.cons_ne_nil _ _)]
  | @ifElse _ start opened closed mark ts vs ws e s₁ s₂ d₁ _ hstart hopened he hclosed hthen
      hnearest hmark helse =>
      simp only [List.forall_mem_cons, List.forall_mem_append] at hts
      obtain ⟨-, -, hts, -, hvs, -, hws⟩ := hts
      simp only [List.length_cons, List.length_append] at hn
      have hnot : d₁ = true → mark.kind ≠ .elseWord := by
        rw [hnearest rfl]
        exact nofun
      have hread₁ : standard.stmtWithin n (vs ++ mark :: (ws ++ t :: us)) =
          .ok s₁ (mark :: (ws ++ t :: us)) := hinner hthen hvs (by omega) rfl hnot
      have hread₂ : standard.stmtWithin n (ws ++ t :: us) = .ok s₂ (t :: us) :=
        hinner helse hws (by omega) ht hdangling
      have hbranch : elseBranch (standard.stmtWithin n) (mark :: (ws ++ t :: us)) =
          .ok s₂ (t :: us) := by
        rw [elseBranch, bind_currentKind, if_pos hmark, bind_take (by simp), hread₂]
      simp only [List.cons_append, List.append_assoc]
      rw [stmtWithin_of_rule .conditional (by rw [hstart]; rfl), StmtRule.readWith,
        bind_take (List.cons_ne_nil _ _),
        bind_eq (condition_of_derives hopened he hts hclosed (by simp)), bind_eq hread₁,
        bind_eq hbranch]
      rfl
  | @ifOnly _ start opened closed ts vs e s d hstart hopened he hclosed hthen =>
      simp only [List.forall_mem_cons, List.forall_mem_append] at hts
      obtain ⟨-, -, hts, -, hvs⟩ := hts
      simp only [List.length_cons, List.length_append] at hn
      have hread : standard.stmtWithin n (vs ++ t :: us) = .ok s (t :: us) :=
        hinner hthen hvs (by omega) ht fun _ => hdangling rfl
      have hbranch : elseBranch (standard.stmtWithin n) (t :: us) =
          .ok (.empty next) (t :: us) := by
        rw [elseBranch, bind_currentKind, if_neg (hdangling rfl), ← ht]
        rfl
      simp only [List.cons_append, List.append_assoc]
      rw [stmtWithin_of_rule .conditional (by rw [hstart]; rfl), StmtRule.readWith,
        bind_take (List.cons_ne_nil _ _),
        bind_eq (condition_of_derives hopened he hts hclosed (by simp)), bind_eq hread,
        bind_eq hbranch]
      rfl
  | @loop _ start opened closed ts vs e s _ hstart hopened he hclosed hbody =>
      simp only [List.forall_mem_cons, List.forall_mem_append] at hts
      obtain ⟨-, -, hts, -, hvs⟩ := hts
      simp only [List.length_cons, List.length_append] at hn
      have hread : standard.stmtWithin n (vs ++ t :: us) = .ok s (t :: us) :=
        hinner hbody hvs (by omega) ht hdangling
      simp only [List.cons_append, List.append_assoc]
      rw [stmtWithin_of_rule .loop (by rw [hstart]; rfl), StmtRule.readWith,
        bind_take (List.cons_ne_nil _ _),
        bind_eq (condition_of_derives hopened he hts hclosed (by simp)), bind_eq hread]
      rfl

theorem stmtsBelow_stmtWithin (n : Nat) : StmtsBelow n (standard.stmtWithin n) := by
  induction n with
  | zero => exact fun _ _ _ _ _ _ _ _ hn => absurd hn (Nat.not_lt_zero _)
  | succ n ih =>
      intro next ts s d t us hs hts hn ht hdangling
      exact stmtWithin_of_derives ih hs hts (Nat.le_of_lt_succ hn) ht hdangling

theorem stmtsBelow_stmt (n : Nat) : StmtsBelow n standard.stmt := by
  intro next ts s d t us hs hts _ ht hdangling
  rw [stmt_apply]
  exact stmtsBelow_stmtWithin _ hs hts (by simp; omega) ht hdangling

/-! ### Declarations -/

theorem typeDeclaration_of_derives {ts us : List Token} {d : TypeDeclaration} (h : d.Derives ts)
    (hts : ∀ t ∈ ts, t.Lexical) (hus : us ≠ []) :
    standard.typeDeclaration (ts ++ us) = .ok d us := by
  obtain ⟨hstart, hname, hmark, htype, hclosed⟩ := h
  simp only [List.forall_mem_cons, List.forall_mem_append] at hts
  simp only [List.cons_append, List.append_assoc, List.nil_append]
  rw [typeDeclaration, bind_expect hstart (List.cons_ne_nil _ _),
    bind_expect hname (List.cons_ne_nil _ _), bind_expect hmark (by simp),
    bind_eq (typeExpr_of_derives htype hts.2.2.2.1 _ _), bind_expect hclosed hus]
  rfl

theorem parameter_of_derives {ts us : List Token} {t : Token} {p : Parameter} (h : p.Derives ts)
    (hts : ∀ t ∈ ts, t.Lexical) : standard.parameter (ts ++ t :: us) = .ok p (t :: us) := by
  cases h with
  | byValue hname hmark htype =>
      simp only [List.forall_mem_cons] at hts
      simp only [List.cons_append]
      rw [parameter, bind_currentKind, hname]
      dsimp only
      rw [if_neg (by decide), bind_expect hname (List.cons_ne_nil _ _), bind_expect hmark (by simp),
        bind_eq (typeExpr_of_derives htype hts.2.2 _ _)]
      rfl
  | byReference hstart hname hmark htype =>
      simp only [List.forall_mem_cons] at hts
      simp only [List.cons_append]
      rw [parameter, bind_currentKind, hstart]
      dsimp only
      rw [if_pos (by decide), bind_take (List.cons_ne_nil _ _),
        bind_expect hname (List.cons_ne_nil _ _), bind_expect hmark (by simp),
        bind_eq (typeExpr_of_derives htype hts.2.2.2 _ _)]
      rfl

theorem localVariable_of_derives {ts us : List Token} {v : LocalVariable} (h : v.Derives ts)
    (hts : ∀ t ∈ ts, t.Lexical) (hus : us ≠ []) :
    standard.localVariable (ts ++ us) = .ok v us := by
  obtain ⟨hstart, hname, hmark, htype, hclosed⟩ := h
  simp only [List.forall_mem_cons, List.forall_mem_append] at hts
  simp only [List.cons_append, List.append_assoc, List.nil_append]
  rw [localVariable, bind_expect hstart (List.cons_ne_nil _ _),
    bind_expect hname (List.cons_ne_nil _ _), bind_expect hmark (by simp),
    bind_eq (typeExpr_of_derives htype hts.2.2.2.1 _ _), bind_expect hclosed hus]
  rfl

theorem procedure_of_derives {ts us : List Token} {p : Procedure} (h : p.Derives .nearest ts)
    (hts : ∀ t ∈ ts, t.Lexical) (hus : us ≠ []) : standard.procedure (ts ++ us) = .ok p us := by
  obtain @⟨start, name, opened, closed, opened', closed', ts, vs, ws, parameters, locals, body,
    hstart, hname, hopened, hparameters, hclosed, hopened', hlocals, hbody, hclosed'⟩ := h
  simp only [List.forall_mem_cons, List.forall_mem_append] at hts
  obtain ⟨-, -, -, hts, -, -, hvs, hws, -⟩ := hts
  have hread₁ : parenthesised standard.parameter
      (ts ++ closed :: opened' :: (vs ++ (ws ++ closed' :: us))) =
        .ok parameters (closed :: opened' :: (vs ++ (ws ++ closed' :: us))) := by
    refine parenthesised_of_separated ?_ (fun ts p t us hp hts _ => parameter_of_derives hp hts)
      hparameters hts hclosed
    rintro ts p (⟨hname, -, -⟩ | ⟨hstart, -, -, -⟩)
    · exact ⟨_, _, rfl, by rw [hname]; decide⟩
    · exact ⟨_, _, rfl, by rw [hstart]; decide⟩
  obtain ⟨u, rest, hnext, -, -, hvar⟩ := exists_next_of_stmts us hbody rfl hclosed'
  have hread₂ : collectWhile (· == .varWord) standard.localVariable
      (vs ++ (ws ++ closed' :: us)) = .ok locals (ws ++ closed' :: us) := by
    rw [hnext]
    refine collectWhile_of_sequence (F := fun _ => True) ?_
      (fun ts v t us hv hts _ => localVariable_of_derives hv hts (List.cons_ne_nil _ _)) hlocals hvs
      (by simpa using hvar) trivial
    rintro ts v ⟨hstart, -, -, -, -⟩
    exact ⟨_, _, rfl, by rw [hstart]; rfl, trivial⟩
  have hread₃ : braced standard.stmt (ws ++ closed' :: us) = .ok body us :=
    braced_of_stmts (stmtsBelow_stmt (ws.length + 1)) hbody hws (Nat.lt_succ_self _) hclosed' hus
  simp only [List.cons_append, List.append_assoc, List.nil_append]
  rw [procedure, bind_expect hstart (List.cons_ne_nil _ _),
    bind_expect hname (List.cons_ne_nil _ _), bind_expect hopened (by simp), bind_eq hread₁,
    bind_expect hclosed (List.cons_ne_nil _ _), bind_expect hopened' (by simp), bind_eq hread₂,
    bind_eq hread₃]
  rfl

theorem declaration_of_derives {ts us : List Token} {d : Declaration} (h : d.Derives .nearest ts)
    (hts : ∀ t ∈ ts, t.Lexical) (hus : us ≠ []) : standard.declaration (ts ++ us) = .ok d us := by
  cases h with
  | type h =>
      have hread := typeDeclaration_of_derives h hts hus
      obtain ⟨hstart, -, -, -, -⟩ := h
      rw [List.cons_append] at hread ⊢
      rw [declaration, bind_currentKind, hstart]
      exact bind_eq hread
  | procedure h =>
      have hread := procedure_of_derives h hts hus
      obtain ⟨hstart, -, -, -, -, -, -, -, -⟩ := h
      rw [List.cons_append] at hread ⊢
      rw [declaration, bind_currentKind, hstart]
      exact bind_eq hread

/-! ### Programs -/

theorem program_of_derives (file : String) {ts : List Token} {eof : Token} {ds : List Declaration}
    (h : Program.Derives .nearest ts ds) (hts : ∀ t ∈ ts, t.Lexical) (heof : eof.kind = .eof) :
    standard.program file (ts ++ [eof]) = .ok ⟨ds, ⟨⟨0, file⟩, eof.span.start⟩⟩ [eof] := by
  have hread : collectWhile (· != .eof) standard.declaration (ts ++ [eof]) = .ok ds [eof] := by
    refine collectWhile_of_sequence (F := fun _ => True) ?_
      (fun ts d t us hd hts _ => declaration_of_derives hd hts (List.cons_ne_nil _ _)) h hts
      (by rw [heof]; rfl) trivial
    rintro ts d (⟨⟨hstart, -, -, -, -⟩⟩ | ⟨⟨hstart, -, -, -, -, -, -, -, -⟩⟩)
    · exact ⟨_, _, rfl, by rw [hstart]; rfl, trivial⟩
    · exact ⟨_, _, rfl, by rw [hstart]; rfl, trivial⟩
  rw [program, bind_eq hread]
  rfl

end Grammar

end Spl
