import Mathlib.Data.List.Forall2
import Spl.Proofs.Parser.Completeness
import Spl.Proofs.Parser.Freshness
import Spl.Proofs.Syntax.Printer
import Spl.Proofs.Token.Spacing

/-!
Programs that are printed and read again. Whatever tokens the lexemes of a phrase
are read as, the phrase is derived from them up to positions. The parser reads
what is derived, so it answers the program that was printed.
-/

namespace Spl

/-! ### Lexemes and what is derived from them -/

/-- All of these are lexemes of tokens, and tokens that are read from them have
the property. -/
def Writes (lexemes : List String) (P : List Token → Prop) : Prop :=
  (∀ s ∈ lexemes, ∃ kind, Lexeme s kind) ∧ ∀ ts, List.Forall₂ Token.Reads ts lexemes → P ts

namespace Writes

variable {s : String} {ss ss' : List String} {k : TokenKind} {P Q : List Token → Prop}

theorem mono (h : Writes ss P) (hQ : ∀ ts, P ts → Q ts) : Writes ss Q :=
  ⟨h.1, fun ts hts => hQ ts (h.2 ts hts)⟩

theorem nil (h : P []) : Writes [] P := by
  refine ⟨by simp, ?_⟩
  rintro ts ⟨⟩
  exact h

theorem append (h : Writes ss Q) (h' : ∀ us, Q us → Writes ss' fun vs => P (us ++ vs)) :
    Writes (ss ++ ss') P := by
  obtain ⟨us, hus⟩ := exists_reads h.1
  refine ⟨List.forall_mem_append.mpr ⟨h.1, (h' us (h.2 us hus)).1⟩, fun ts hts => ?_⟩
  rw [← List.take_append_drop ss.length ts]
  exact (h' _ (h.2 _ (List.forall₂_take_append ts ss ss' hts))).2 _
    (List.forall₂_drop_append ts ss ss' hts)

theorem cons (hs : Lexeme s k)
    (h : ∀ t, t.Reads s → t.kind = k → Writes ss fun ts => P (t :: ts)) : Writes (s :: ss) P := by
  have hone : Writes [s] fun ts => ∃ t, ts = [t] ∧ t.Reads s := by
    refine ⟨by simpa using ⟨k, hs⟩, ?_⟩
    rintro ts (_ | ⟨ht, ⟨⟩⟩)
    exact ⟨_, rfl, ht⟩
  rw [← List.singleton_append]
  refine hone.append ?_
  rintro us ⟨t, rfl, ht⟩
  exact h t ht (ht.kind_eq hs)

end Writes

/-! ### Integers -/

namespace Literal

theorem toLower_digitChar {d : Nat} (h : d < 16) : d.digitChar.toLower = d.digitChar := by
  have hdigits : ∀ d < 16, d.digitChar.toLower = d.digitChar := by decide
  exact hdigits d h

theorem spells_toDigits {base : Nat} (hbase : 1 < base) (hle : base ≤ 16) (n : Nat) :
    Spells base (Nat.toDigits base n) n := by
  induction n using Nat.strongRecOn with
  | ind n ih =>
      by_cases hn : n < base
      · rw [Nat.toDigits_of_lt_base hn]
        exact ⟨[n], .cons ⟨hn, toLower_digitChar (by omega)⟩ .nil, by simp, by simp⟩
      · -- The last digit stands behind those of the quotient.
        have hmod : n % base < base := Nat.mod_lt n (by omega)
        obtain ⟨ds, hds, -, hvalue⟩ := ih (n / base) (Nat.div_lt_self (by omega) hbase)
        rw [Nat.toDigits_of_base_le hbase (by omega)]
        refine ⟨ds ++ [n % base], List.rel_append hds
          (.cons ⟨hmod, toLower_digitChar (by omega)⟩ .nil), by simp, ?_⟩
        rw [List.reverse_append, List.reverse_singleton, List.singleton_append, Nat.ofDigits_cons,
          ← hvalue]
        exact (Nat.mod_add_div n base).symm

theorem Spells.ne_nil {base : Nat} {cs : List Char} {n : Nat} (h : Spells base cs n) : cs ≠ [] := by
  obtain ⟨ds, hds, hne, -⟩ := h
  rintro rfl
  cases hds
  exact hne rfl

/-- What digits of a base spell consists of characters that are read as such. -/
theorem Spells.forall_isSome {base : Nat} {digit? : Char → Option Nat}
    (hdigit : ∀ {c d}, digit? c = some d ↔ d < base ∧ c.toLower = d.digitChar) {cs : List Char}
    {n : Nat} (h : Spells base cs n) : ∀ c ∈ cs, (digit? c).isSome = true := by
  obtain ⟨ds, hds, -, -⟩ := h
  clear * - hdigit hds
  induction hds with
  | nil => simp
  | cons hd _ ih =>
      refine List.forall_mem_cons.mpr ⟨?_, ih⟩
      rw [hdigit.mpr hd]
      rfl

theorem toNat_lt_iff_nonneg {n : Int32} : n.toUInt32.toNat < 2 ^ 31 ↔ 0 ≤ n := by
  have hbits : n.toUInt32.toNat = n.toBitVec.toNat := rfl
  have hsign : 0 ≤ n ↔ 0 ≤ n.toBitVec.toInt := Int32.le_iff_toInt_le
  rw [hsign, BitVec.toInt_eq_toNat_cond]
  split <;> omega

theorem lexeme_spell (n : Int32) :
    Lexeme (spell n) (if 0 ≤ n then .number else .hexNumber) := by
  rw [spell]
  split
  · have hspells : Spells 10 _ _ := spells_toDigits (by decide) (by decide) n.toUInt32.toNat
    refine ⟨.decimal, ?_, rfl⟩
    rw [String.toList_ofList]
    refine .decimal hspells.ne_nil fun c hc => ?_
    rw [← isSome_decimalDigit?]
    exact hspells.forall_isSome decimalDigit?_eq_some_iff c hc
  · have hspells : Spells 16 _ _ := spells_toDigits (by decide) (by decide) n.toUInt32.toNat
    refine ⟨.hexadecimal, ?_, rfl⟩
    rw [String.toList_ofList]
    refine .hexadecimal (.inl rfl) hspells.ne_nil fun c hc => ?_
    rw [← isSome_hexDigit?]
    exact hspells.forall_isSome hexDigit?_eq_some_iff c hc

/-- An integer is read from its spelling. -/
theorem denotes_of_reads {t : Token} {n : Int32} (h : t.Reads (spell n)) : t.Denotes n := by
  have hkind := h.kind_eq (lexeme_spell n)
  have hvalue := h.value_eq (by rw [hkind]; split <;> decide)
  have hbits : (UInt32.ofNat n.toUInt32.toNat).toInt32 = n := by
    rw [UInt32.ofNat_toNat, Int32.toInt32_toUInt32]
  rw [spell] at hvalue
  by_cases hn : 0 ≤ n
  · rw [if_pos hn] at hkind hvalue
    have hdenotes := Token.Denotes.decimal (t := t) (n := n.toUInt32.toNat) hkind
      (by rw [hvalue, String.toList_ofList]; exact spells_toDigits (by decide) (by decide) _)
      (toNat_lt_iff_nonneg.mpr hn)
    rw [← hbits]
    exact hdenotes
  · rw [if_neg hn] at hkind hvalue
    have hdenotes := Token.Denotes.hexadecimal (t := t) (n := n.toUInt32.toNat) hkind
      (by rw [hvalue, String.toList_ofList]) (spells_toDigits (by decide) (by decide) _)
      n.toUInt32.toNat_lt
    rwa [hbits] at hdenotes

end Literal

/-! ### Expressions -/

theorem Nameable.lexeme {name : String} (h : Nameable name) : Lexeme name .identifier := by
  refine ⟨.word, h.word, ?_⟩
  have hlookup : reservedWords.lookup name = none :=
    List.lookup_eq_none_iff.mpr fun entry hentry => by simpa using (h.free entry hentry).symm
  rw [Pattern.kind?, String.ofList_toList, hlookup]
  rfl

theorem Token.Reads.value_of_identifier {t : Token} {name : String} (h : t.Reads name)
    (hkind : t.kind = .identifier) : t.value = name :=
  h.value_eq (by rw [hkind]; decide)

theorem BinaryOp.exists_mark (op : BinaryOp) :
    ∃ kind, (kind, op) ∈ op.power.operators ∧ Lexeme op.text kind := by
  cases op with
  | add => exact ⟨.plus, by decide, by decide⟩
  | sub => exact ⟨.dash, by decide, by decide⟩
  | mul => exact ⟨.star, by decide, by decide⟩
  | div => exact ⟨.slash, by decide, by decide⟩
  | equal => exact ⟨.equals, by decide, by decide⟩
  | notEqual => exact ⟨.notEquals, by decide, by decide⟩
  | less => exact ⟨.less, by decide, by decide⟩
  | lessEqual => exact ⟨.lessEquals, by decide, by decide⟩
  | greater => exact ⟨.greater, by decide, by decide⟩
  | greaterEqual => exact ⟨.greaterEquals, by decide, by decide⟩

/-- The expression is derived at the level, up to positions. -/
def Expr.Printed (tier : Tier) (e : Expr) (ts : List Token) : Prop :=
  ∃ e', e'.bare = e.bare ∧ ExprPhrase.Derives ts (.expr tier e')

def Variable.Printed (v : Variable) (ts : List Token) : Prop :=
  ∃ v' : Variable, v'.bare = v.bare ∧ v'.Derives ts

theorem Expr.Printed.loosen {e : Expr} {ts : List Token} {tier tier' : Tier} (h : e.Printed tier ts)
    (hle : tier'.rank ≤ tier.rank) : e.Printed tier' ts := by
  obtain ⟨e', hbare, hderives⟩ := h
  exact ⟨e', hbare, hderives.loosen hle⟩

/-- Parentheses are written if they are needed. -/
theorem Expr.writes_enclose {e : Expr} {own place : Tier} {ss : List String}
    (h : Writes ss (e.Printed own)) : Writes (own.enclose place ss) (e.Printed place) := by
  rw [Tier.enclose]
  split
  · refine .cons (k := .openParen) (by decide) fun opened _ hopened => h.append ?_
    rintro us ⟨e', hbare, hderives⟩
    refine .cons (k := .closeParen) (by decide) fun closed _ hclosed => .nil ?_
    have hgroup := ExprPhrase.Derives.group hopened (hderives.loosen (Nat.zero_le _)) hclosed
    exact ⟨e', hbare, hgroup.loosen (by cases place <;> decide)⟩
  · exact h.mono fun ts hts => hts.loosen (by omega)

mutual

theorem Expr.writes_lexemes : (e : Expr) → e.Writable → (place : Tier) →
    Writes (e.lexemes place) (e.Printed place)
  | .int n _ _, _, place => by
      refine .cons (Literal.lexeme_spell n) fun t ht _ => .nil ?_
      have hliteral := ExprPhrase.Derives.literal (Literal.denotes_of_reads ht)
      exact ⟨.int n t.span.start none, rfl, hliteral.loosen (by cases place <;> decide)⟩
  | .var v _ _, hv, place => by
      refine (Variable.writes_lexemes v hv).mono ?_
      rintro ts ⟨v', hbare, hderives⟩
      refine ⟨.var v' v'.position none, ?_, (ExprPhrase.Derives.read hderives).loosen
        (by cases place <;> decide)⟩
      rw [Expr.bare, Expr.bare, hbare]
  | .unary op operand _ _, hoperand, place => by
      refine Expr.writes_enclose ?_
      refine .cons (k := .dash) (by cases op; decide) fun sign _ hsign => ?_
      refine (Expr.writes_lexemes operand hoperand .signed).mono ?_
      rintro ts ⟨e', hbare, hderives⟩
      refine ⟨_, ?_, .negation hsign hderives⟩
      cases op
      rw [Expr.bare, Expr.bare, hbare]
  | .binary op left right _ _, ⟨hleft, hright⟩, place => by
      obtain ⟨kind, hop, hlexeme⟩ := op.exists_mark
      refine Expr.writes_enclose ((Expr.writes_lexemes left hleft _).append ?_)
      rintro us ⟨left', hbare, hderives⟩
      refine .cons hlexeme fun mark _ hmark => (Expr.writes_lexemes right hright _).mono ?_
      rintro vs ⟨right', hbare', hderives'⟩
      refine ⟨_, ?_, hderives.binary (by rwa [hmark]) (by cases op <;> decide) hderives'⟩
      rw [Expr.bare, Expr.bare, hbare, hbare']

theorem Variable.writes_lexemes : (v : Variable) → v.Writable → Writes v.lexemes v.Printed
  | .named name _ _, hname => by
      refine .cons (Nameable.lexeme hname) fun t ht hkind => .nil ?_
      refine ⟨_, ?_, .named hkind⟩
      rw [Variable.bare, Variable.bare, ht.value_of_identifier hkind]
  | .element array index _ _, ⟨harray, hindex⟩ => by
      refine (Variable.writes_lexemes array harray).append ?_
      rintro us ⟨array', hbare, hderives⟩
      refine .cons (k := .openBracket) (by decide) fun opened _ hopened =>
        (Expr.writes_lexemes index hindex .comparison).append ?_
      rintro vs ⟨index', hbare', hderives'⟩
      refine .cons (k := .closeBracket) (by decide) fun closed _ hclosed => .nil ?_
      refine ⟨_, ?_, .element hderives hopened hderives' hclosed⟩
      rw [Variable.bare, Variable.bare, hbare, hbare']

end

/-! ### Lists -/

section Lists

variable {α : Type} {D : List Token → α → Prop} {bare : α → α} {lexemes : α → List String}
  {xs : List α}

theorem writes_flatMap (h : ∀ x ∈ xs, Writes (lexemes x) fun ts => ∃ y, bare y = bare x ∧ D ts y) :
    Writes (xs.flatMap lexemes) fun ts => ∃ ys, ys.map bare = xs.map bare ∧ Sequence D ts ys := by
  induction xs with
  | nil => exact .nil ⟨[], rfl, .nil⟩
  | cons x xs ih =>
      obtain ⟨hx, hxs⟩ := List.forall_mem_cons.mp h
      rw [List.flatMap_cons]
      refine hx.append ?_
      rintro us ⟨y, hy, hD⟩
      refine (ih hxs).mono ?_
      rintro vs ⟨ys, hys, hDs⟩
      exact ⟨y :: ys, by rw [List.map_cons, List.map_cons, hy, hys], .cons hD hDs⟩

theorem writes_commaSeparated
    (h : ∀ x ∈ xs, Writes (lexemes x) fun ts => ∃ y, bare y = bare x ∧ D ts y) :
    Writes (commaSeparated (xs.map lexemes)) fun ts =>
      ∃ ys, ys.map bare = xs.map bare ∧ Separated D ts ys := by
  cases xs with
  | nil => exact .nil ⟨[], rfl, .none⟩
  | cons x xs =>
      obtain ⟨hx, hxs⟩ := List.forall_mem_cons.mp h
      rw [List.map_cons, commaSeparated, List.flatMap_map]
      refine hx.append ?_
      rintro us ⟨y, hy, hD⟩
      have hothers : ∀ x ∈ xs, Writes ("," :: lexemes x) fun ts =>
          ∃ y, bare y = bare x ∧ AfterComma D ts y := by
        intro x hx
        refine .cons (k := .comma) (by decide) fun mark _ hmark => (hxs x hx).mono ?_
        rintro ts ⟨y, hy, hD⟩
        exact ⟨y, hy, .intro hmark hD⟩
      refine (writes_flatMap hothers).mono ?_
      rintro vs ⟨ys, hys, hDs⟩
      exact ⟨y :: ys, by rw [List.map_cons, List.map_cons, hy, hys], .some hD hDs⟩

end Lists

/-! ### Statements -/

theorem writes_arguments {es : List Expr} (h : ∀ e ∈ es, e.Writable) :
    Writes (commaSeparated (es.map (Expr.lexemes .comparison))) fun ts =>
      ∃ es', es'.map Expr.bare = es.map Expr.bare ∧ Separated (fun ts e => e.Derives ts) ts es' :=
  writes_commaSeparated fun e he => e.writes_lexemes (h e he) .comparison

/-- The statement is derived up to positions, and no `else` could be added to
it. -/
def Stmt.Printed (s : Stmt) (ts : List Token) : Prop :=
  ∃ s' : Stmt, s'.bare = s.bare ∧ ∀ next, StmtPhrase.Derives .nearest next ts (.stmt s' false)

def Stmt.AllPrinted (ss : List Stmt) (ts : List Token) : Prop :=
  ∃ ss', Stmt.bareAll ss' = Stmt.bareAll ss ∧
    ∀ next, StmtPhrase.Derives .nearest next ts (.stmts ss')

namespace Stmt

mutual

theorem writes_lexemes : (s : Stmt) → s.Writable → Writes s.lexemes s.Printed
  | empty _, _ =>
      .cons (k := .semicolon) (by decide) fun t _ hkind =>
        .nil ⟨.empty t.span.start, rfl, fun _ => .empty hkind⟩
  | compound body _, hbody => by
      refine .cons (k := .openCurly) (by decide) fun opened _ hopened =>
        (writes_lexemesOfAll body hbody).append ?_
      rintro us ⟨body', hbare, hderives⟩
      refine .cons (k := .closeCurly) (by decide) fun closed _ hclosed => .nil ?_
      refine ⟨_, ?_, fun next => .compound hopened (hderives _) hclosed⟩
      rw [bare, bare, hbare]
  | assign target value _, ⟨htarget, hvalue⟩ => by
      refine (target.writes_lexemes htarget).append ?_
      rintro us ⟨target', hbare, hderives⟩
      refine .cons (k := .assignment) (by decide) fun mark _ hmark =>
        (value.writes_lexemes hvalue .comparison).append ?_
      rintro vs ⟨value', hbare', hderives'⟩
      refine .cons (k := .semicolon) (by decide) fun closed _ hclosed => .nil ?_
      refine ⟨_, ?_, fun next => .assign hderives hmark hderives' hclosed⟩
      rw [bare, bare, hbare, hbare']
  | call procedure arguments _, ⟨hname, harguments⟩ => by
      refine .cons hname.lexeme fun name hread hkind => ?_
      refine .cons (k := .openParen) (by decide) fun opened _ hopened =>
        (writes_arguments harguments).append ?_
      rintro us ⟨arguments', hbare, hderives⟩
      refine .cons (k := .closeParen) (by decide) fun closed _ hclosed => ?_
      refine .cons (k := .semicolon) (by decide) fun mark _ hmark => .nil ?_
      refine ⟨_, ?_, fun next => .call hkind hopened hderives hclosed hmark⟩
      rw [bare, bare, hbare, hread.value_of_identifier hkind]
  | conditional condition thenBranch elseBranch _, ⟨hcondition, hthen, helse⟩ => by
      refine .cons (k := .ifWord) (by decide) fun start _ hstart => ?_
      refine .cons (k := .openParen) (by decide) fun opened _ hopened =>
        (condition.writes_lexemes hcondition .comparison).append ?_
      rintro us ⟨condition', hbare₁, hderives₁⟩
      refine .cons (k := .closeParen) (by decide) fun closed _ hclosed =>
        (writes_lexemes thenBranch hthen).append ?_
      rintro vs ⟨then', hbare₂, hderives₂⟩
      refine .cons (k := .elseWord) (by decide) fun mark _ hmark =>
        (writes_lexemes elseBranch helse).mono ?_
      rintro ws ⟨else', hbare₃, hderives₃⟩
      refine ⟨_, ?_, fun next => .ifElse hstart hopened hderives₁ hclosed (hderives₂ _)
        (fun _ => rfl) hmark (hderives₃ next)⟩
      rw [bare, bare, hbare₁, hbare₂, hbare₃]
  | loop condition body _, ⟨hcondition, hbody⟩ => by
      refine .cons (k := .whileWord) (by decide) fun start _ hstart => ?_
      refine .cons (k := .openParen) (by decide) fun opened _ hopened =>
        (condition.writes_lexemes hcondition .comparison).append ?_
      rintro us ⟨condition', hbare₁, hderives₁⟩
      refine .cons (k := .closeParen) (by decide) fun closed _ hclosed =>
        (writes_lexemes body hbody).mono ?_
      rintro vs ⟨body', hbare₂, hderives₂⟩
      refine ⟨_, ?_, fun next => .loop hstart hopened hderives₁ hclosed (hderives₂ next)⟩
      rw [bare, bare, hbare₁, hbare₂]

theorem writes_lexemesOfAll :
    (ss : List Stmt) → AllWritable ss → Writes (lexemesOfAll ss) (AllPrinted ss)
  | [], _ => .nil ⟨[], rfl, fun _ => .nil⟩
  | s :: ss, ⟨hs, hss⟩ => by
      refine (writes_lexemes s hs).append ?_
      rintro us ⟨s', hbare, hderives⟩
      refine (writes_lexemesOfAll ss hss).mono ?_
      rintro vs ⟨ss', hbare', hderives'⟩
      refine ⟨s' :: ss', ?_, fun next => .cons (hderives _) (hderives' next)⟩
      rw [bareAll, bareAll, hbare, hbare']

end

end Stmt

/-! ### Declarations -/

theorem TypeExpr.writes_lexemes {e : TypeExpr} (h : e.Writable) :
    Writes e.lexemes fun ts => ∃ e' : TypeExpr, e'.bare = e.bare ∧ e'.Derives ts := by
  induction e with
  | named name _ _ =>
      refine .cons (Nameable.lexeme h) fun t ht hkind => .nil ⟨_, ?_, .named hkind⟩
      rw [bare, bare, ht.value_of_identifier hkind]
  | array size element _ _ ih =>
      obtain ⟨hsize, helement⟩ := h
      refine .cons (k := .arrayWord) (by decide) fun start _ hstart => ?_
      refine .cons (k := .openBracket) (by decide) fun opened _ hopened => ?_
      refine .cons (Literal.lexeme_spell _) fun literal hliteral _ => ?_
      refine .cons (k := .closeBracket) (by decide) fun closed _ hclosed => ?_
      refine .cons (k := .ofWord) (by decide) fun mark _ hmark => (ih helement).mono ?_
      rintro ts ⟨element', hbare, hderives⟩
      have hsign : 0 ≤ size.toInt32 := by
        rwa [← Literal.toNat_lt_iff_nonneg, UInt32.toUInt32_toInt32]
      refine ⟨_, ?_, .array hstart hopened (Literal.denotes_of_reads hliteral) hsign hclosed hmark
        hderives⟩
      rw [bare, bare, hbare, UInt32.toUInt32_toInt32]

theorem TypeDeclaration.writes_lexemes {d : TypeDeclaration} (hname : Nameable d.name)
    (htype : d.type.Writable) :
    Writes d.lexemes fun ts => ∃ d' : TypeDeclaration, d'.name = d.name ∧
      d'.type.bare = d.type.bare ∧ d'.Derives ts := by
  refine .cons (k := .typeWord) (by decide) fun start _ hstart => ?_
  refine .cons hname.lexeme fun name hread hkind => ?_
  refine .cons (k := .equals) (by decide) fun mark _ hmark =>
    (TypeExpr.writes_lexemes htype).append ?_
  rintro us ⟨type, hbare, hderives⟩
  refine .cons (k := .semicolon) (by decide) fun closed _ hclosed => .nil ?_
  exact ⟨_, hread.value_of_identifier hkind, hbare, .intro hstart hkind hmark hderives hclosed⟩

theorem Parameter.writes_lexemes {p : Parameter} (hname : Nameable p.name)
    (htype : p.type.Writable) :
    Writes p.lexemes fun ts => ∃ p' : Parameter, p'.bare = p.bare ∧ p'.Derives ts := by
  obtain ⟨name, type, byReference, position⟩ := p
  have hrest : Writes (name :: ":" :: type.lexemes) fun ts =>
      ∃ (t mark : Token) (us : List Token) (type' : TypeExpr),
      ts = t :: mark :: us ∧ t.kind = .identifier ∧ t.value = name ∧ mark.kind = .colon ∧
        type'.bare = type.bare ∧ type'.Derives us := by
    refine .cons hname.lexeme fun t hread hkind => ?_
    refine .cons (k := .colon) (by decide) fun mark _ hmark =>
      (TypeExpr.writes_lexemes htype).mono ?_
    rintro us ⟨type', hbare, hderives⟩
    exact ⟨t, mark, us, type', rfl, hkind, hread.value_of_identifier hkind, hmark, hbare, hderives⟩
  cases byReference with
  | false =>
      refine hrest.mono ?_
      rintro ts ⟨t, mark, us, type', rfl, hkind, hvalue, hmark, hbare, hderives⟩
      refine ⟨_, ?_, .byValue hkind hmark hderives⟩
      rw [bare, bare, hvalue, hbare]
  | true =>
      refine .cons (k := .refWord) (by decide) fun start _ hstart => hrest.mono ?_
      rintro ts ⟨t, mark, us, type', rfl, hkind, hvalue, hmark, hbare, hderives⟩
      refine ⟨_, ?_, .byReference hstart hkind hmark hderives⟩
      rw [bare, bare, hvalue, hbare]

theorem LocalVariable.writes_lexemes {v : LocalVariable} (hname : Nameable v.name)
    (htype : v.type.Writable) :
    Writes v.lexemes fun ts => ∃ v' : LocalVariable, v'.bare = v.bare ∧ v'.Derives ts := by
  refine .cons (k := .varWord) (by decide) fun start _ hstart => ?_
  refine .cons hname.lexeme fun name hread hkind => ?_
  refine .cons (k := .colon) (by decide) fun mark _ hmark =>
    (TypeExpr.writes_lexemes htype).append ?_
  rintro us ⟨type, hbare, hderives⟩
  refine .cons (k := .semicolon) (by decide) fun closed _ hclosed => .nil ?_
  refine ⟨_, ?_, .intro hstart hkind hmark hderives hclosed⟩
  rw [bare, bare, hread.value_of_identifier hkind, hbare]

theorem Declaration.writes_lexemes {d : Declaration} (h : d.Writable) :
    Writes d.lexemes fun ts => ∃ d' : Declaration, d'.bare = d.bare ∧ d'.Derives .nearest ts := by
  cases d with
  | type d =>
      refine (TypeDeclaration.writes_lexemes h.1 h.2).mono ?_
      rintro ts ⟨d', hname, hbare, hderives⟩
      refine ⟨.type d', ?_, .type hderives⟩
      rw [bare, bare, hname, hbare]
  | procedure p =>
      obtain ⟨hname, hparameters, hlocals, hbody⟩ := h
      refine .cons (k := .procWord) (by decide) fun start _ hstart => ?_
      refine .cons hname.lexeme fun name hread hkind => ?_
      refine .cons (k := .openParen) (by decide) fun opened _ hopened =>
        (writes_commaSeparated fun q hq =>
          q.writes_lexemes (hparameters q hq).1 (hparameters q hq).2).append ?_
      rintro us ⟨parameters, hbare₁, hderives₁⟩
      refine .cons (k := .closeParen) (by decide) fun closed _ hclosed => ?_
      refine .cons (k := .openCurly) (by decide) fun opened' _ hopened' =>
        (writes_flatMap fun v hv => v.writes_lexemes (hlocals v hv).1 (hlocals v hv).2).append ?_
      rintro vs ⟨locals, hbare₂, hderives₂⟩
      refine (Stmt.writes_lexemesOfAll p.body hbody).append ?_
      rintro ws ⟨body, hbare₃, hderives₃⟩
      refine .cons (k := .closeCurly) (by decide) fun closed' _ hclosed' => .nil ?_
      refine ⟨_, ?_, .procedure (.intro hstart hkind hopened hderives₁ hclosed hopened' hderives₂
        (hderives₃ _) hclosed')⟩
      rw [bare, bare, hread.value_of_identifier hkind, hbare₁, hbare₂, hbare₃]

/-! ### Programs -/

/-- A program that is printed, with any white space between its lexemes, and read
again is the same up to positions, and has no types. -/
theorem Program.parse_of_spaced {p : Program} (hp : p.Writable) {text : String}
    (htext : Spaced p.lexemes text.toList) (hlimit : text.utf8ByteSize < Count.limit)
    (source : Option String) (file : String) :
    ∃ tokens q rest, tokenize text source = .ok tokens ∧ parse file tokens = .ok q rest ∧
      q.bare = p.bare ∧ q.Fresh := by
  obtain ⟨hlexemes, hderives⟩ := writes_flatMap fun d hd => Declaration.writes_lexemes (hp d hd)
  obtain ⟨ts, eof, htokens, heof, hreads, hlexical⟩ :=
    htext.exists_tokenize hlexemes hlimit source
  obtain ⟨ds, hbare, hds⟩ := hderives ts hreads
  have hparse := Grammar.program_of_derives file hds hlexical heof
  exact ⟨_, _, _, htokens, hparse, by rw [bare, bare, hbare], fresh_of_parse hparse⟩

/-- Parentheses around a sum behind a sign and around differences on the right,
which end with the smallest integer. -/
theorem parse_of_spaced_parentheses :
    let b : Expr := .var (.named "b" .null none) .null none
    let p : Program := ⟨[.procedure ⟨"f",
      [⟨"b", .array 2147483647 (.named "t" .null none) .null none, true, .null⟩], [],
      [.conditional (.binary .notEqual
        (.unary .minus (.binary .add (.int 1 .null none) b .null none) .null none)
        (.binary .sub b (.binary .sub b (.int Int32.minValue .null none) .null none) .null none)
        .null none) (.empty .null) (.empty .null) .null], .null⟩], ⟨.null, .null⟩⟩
    let text := "proc f ( ref b : array [ 2147483647 ] of t ) \x7b " ++
      "if ( - ( 1 + b ) # b - ( b - 0x80000000 ) ) ; else ; \x7d"
    p.Writable ∧ Spaced p.lexemes text.toList ∧ text.utf8ByteSize < Count.limit ∧
      ∃ tokens q rest, tokenize text none = .ok tokens ∧ parse "a.spl" tokens = .ok q rest ∧
        q.bare = p.bare ∧ q.Fresh := by
  intro b p text
  obtain ⟨hf, hb, ht⟩ : Nameable "f" ∧ Nameable "b" ∧ Nameable "t" := by decide
  have hp : p.Writable := by
    refine List.forall_mem_singleton.mpr
      ⟨hf, List.forall_mem_singleton.mpr ⟨hb, by decide, ht⟩, by simp, ?_⟩
    simp [Stmt.AllWritable, Stmt.Writable, Expr.Writable, b, Variable.Writable, hb]
  have htext : text = " ".intercalate p.lexemes := by decide +kernel
  have hspaced : Spaced p.lexemes text.toList := by
    rw [htext]
    exact spaced_intercalate (by decide) (by simp [Blank]; decide) p.lexemes
  have hlimit : text.utf8ByteSize < Count.limit := by decide +kernel
  exact ⟨hp, hspaced, hlimit, Program.parse_of_spaced hp hspaced hlimit none "a.spl"⟩

end Spl
