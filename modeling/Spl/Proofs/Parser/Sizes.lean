import Spl.Proofs.Diagnostic.Placing
import Spl.Proofs.Parser.Completeness
import Spl.Proofs.Parser.Soundness
import Spl.Proofs.Phases
import Spl.Proofs.TypeExpr.Resolved
import Spl.Proofs.Program.Entering
import Spl.Proofs.Token.Value

/-!
The sizes of arrays. Every array type of a program that was read has the value
of the literal behind its bracket as its size. If another token stands there
that is the size of no array, the parser reads all that is in front of it and
complains about this token, whatever follows.
-/

namespace Spl

open Spl.Parser

/-- The tokens of a source can be read. -/
theorem legible_of_tokenize {source : String} {file : Option String} {tokens : List Token}
    (h : tokenize source file = .ok tokens) : Legible tokens := by
  obtain ⟨ts, rfl, htiles⟩ := tiling_of_tokenize h
  exact (Legible.last rfl).append htiles.forall_lexical

/-! ### Sizes that were read -/

/-- Tokens `array [ literal ] of` stand among the tokens, at the position, and the
size is the value of the literal. -/
def ShowsSize (ts : List Token) (position : Position) (size : UInt32) : Prop :=
  ∃ start opened literal closed mark n, [start, opened, literal, closed, mark] <:+: ts ∧
    start.kind = .arrayWord ∧ opened.kind = .openBracket ∧ closed.kind = .closeBracket ∧
    mark.kind = .ofWord ∧ start.span.start = position ∧
    Literal.value literal = .ok n ∧ n.toInt = size.toNat ∧ size.toNat < 2 ^ 31

/-- All array types inside of a type expression show their sizes. -/
def TypeExpr.Sized (ts : List Token) (e : TypeExpr) : Prop :=
  ∀ size element position slot, .array size element position slot ∈ e.nodes →
    ShowsSize ts position size

theorem toInt_eq_of_nonneg {n : Int32} (h : 0 ≤ n) : n.toInt = n.toUInt32.toNat := by
  have hbits : n.toUInt32.toNat = n.toBitVec.toNat := rfl
  have hsign := Literal.toNat_lt_iff_nonneg.mpr h
  rw [hbits] at hsign ⊢
  rw [← Int32.toInt_toBitVec, BitVec.toInt_eq_toNat_cond, if_pos (by omega)]

variable {ts us : List Token}

theorem TypeExpr.Derives.sized {e : TypeExpr} (h : e.Derives us) (hus : us <:+: ts)
    (hts : ∀ t ∈ ts, t.Lexical) : e.Sized ts := by
  induction h with
  | named _ =>
      intro size element position slot hnode
      cases List.mem_singleton.mp hnode
  | @array start opened literal closed mark us n e hstart hopened hliteral hsign hclosed hmark _
      ih =>
      intro size element position slot hnode
      obtain heq | hnode := List.mem_cons.mp hnode
      · cases heq
        have hheader : [start, opened, literal, closed, mark] <:+: ts :=
          (List.prefix_append [start, opened, literal, closed, mark] us).isInfix.trans hus
        have hlexical : literal.Lexical := hts _ (hheader.subset (by simp))
        exact ⟨start, opened, literal, closed, mark, n, hheader, hstart, hopened, hclosed, hmark,
          rfl, Literal.value_of_denotes hlexical hliteral, toInt_eq_of_nonneg hsign,
          Literal.toNat_lt_iff_nonneg.mpr hsign⟩
      · exact ih (infix_tail (infix_tail (infix_tail (infix_tail (infix_tail hus)))))
          size element position slot hnode

theorem Declaration.Derives.sized {rule : ElseRule} {d : Declaration} (h : d.Derives rule us)
    (hus : us <:+: ts) (hts : ∀ t ∈ ts, t.Lexical) : ∀ e ∈ d.typeExprs, e.Sized ts := by
  cases h with
  | type h =>
      obtain ⟨-, -, -, htype, -⟩ := h
      exact List.forall_mem_singleton.mpr
        (htype.sized (infix_left (infix_tail (infix_tail (infix_tail hus)))) hts)
  | procedure h =>
      obtain ⟨-, -, -, hparameters, -, -, hlocals, -, -⟩ := h
      have hrest := infix_tail (infix_tail (infix_tail hus))
      have hinner := infix_tail (infix_tail (infix_right hrest))
      refine List.forall_mem_append.mpr ⟨List.forall_mem_map.mpr ?_, List.forall_mem_map.mpr ?_⟩
      · refine hparameters.forall_placed (fun vs q hq hvs => ?_) (infix_left hrest)
        cases hq with
        | byValue _ _ htype => exact htype.sized (infix_tail (infix_tail hvs)) hts
        | byReference _ _ _ htype =>
            exact htype.sized (infix_tail (infix_tail (infix_tail hvs))) hts
      · refine hlocals.forall_placed (fun vs v hv hvs => ?_) (infix_left hinner)
        obtain ⟨-, -, -, htype, -⟩ := hv
        exact htype.sized (infix_left (infix_tail (infix_tail (infix_tail hvs)))) hts

/-! ### Tokens without sizes -/

/-- No array type begins among the tokens. -/
def Plain (ts : List Token) : Prop :=
  ∀ t ∈ ts, t.kind ≠ .arrayWord

@[simp] theorem plain_nil : Plain [] := fun _ ht => absurd ht List.not_mem_nil

@[simp] theorem plain_cons {t : Token} : Plain (t :: ts) ↔ t.kind ≠ .arrayWord ∧ Plain ts :=
  List.forall_mem_cons

@[simp] theorem plain_append : Plain (ts ++ us) ↔ Plain ts ∧ Plain us :=
  List.forall_mem_append

theorem Token.Denotes.kind_ne_array {t : Token} {n : Int32} (h : t.Denotes n) :
    t.kind ≠ .arrayWord := by
  cases h with
  | decimal hkind _ _ | hexadecimal hkind _ _ _ | newline hkind _ | character hkind _ =>
      rw [hkind]
      decide

theorem kind_ne_array_of_operator {kind : TokenKind} {op : BinaryOp}
    (h : (kind, op) ∈ Token.operators) : kind ≠ .arrayWord := by
  have hoperators : ∀ entry ∈ Token.operators, entry.1 ≠ .arrayWord := by decide
  exact hoperators _ h

theorem ExprPhrase.Derives.plain {phrase : ExprPhrase} (h : Derives ts phrase) : Plain ts := by
  induction h with
  | @comparison _ _ mark op _ _ _ hop _ ihleft ihright =>
      have hmark : (mark.kind, op) ∈ Token.operators := by simp [Token.operators, hop]
      simp [ihleft, kind_ne_array_of_operator hmark, ihright]
  | @sum _ _ mark op _ _ _ hop _ ihleft ihright =>
      have hmark : (mark.kind, op) ∈ Token.operators := by simp [Token.operators, hop]
      simp [ihleft, kind_ne_array_of_operator hmark, ihright]
  | @product _ _ mark op _ _ _ hop _ ihleft ihright =>
      have hmark : (mark.kind, op) ∈ Token.operators := by simp [Token.operators, hop]
      simp [ihleft, kind_ne_array_of_operator hmark, ihright]
  | ofSum _ ih | ofProduct _ ih | ofSigned _ ih | ofPrimary _ ih | read _ ih => exact ih
  | negation hsign _ ih => simp [hsign, ih]
  | literal h => simp [h.kind_ne_array]
  | group hopened _ hclosed ih => simp [hopened, ih, hclosed]
  | named hname => simp [hname]
  | element _ hopened _ hclosed iharray ihindex => simp [iharray, hopened, ihindex, hclosed]

theorem Sequence.plain {α : Type} {D : List Token → α → Prop} {xs : List α}
    (hD : ∀ ts x, D ts x → Plain ts) (h : Sequence D ts xs) : Plain ts := by
  induction h with
  | nil => exact plain_nil
  | cons head _ ih => exact plain_append.mpr ⟨hD _ _ head, ih⟩

theorem Separated.plain {α : Type} {D : List Token → α → Prop} {xs : List α}
    (hD : ∀ ts x, D ts x → Plain ts) (h : Separated D ts xs) : Plain ts := by
  cases h with
  | none => exact plain_nil
  | some first others =>
      refine plain_append.mpr ⟨hD _ _ first, others.plain ?_⟩
      rintro _ x ⟨hmark, hx⟩
      simp [hmark, hD _ x hx]

theorem StmtPhrase.Derives.plain {rule : ElseRule} {next : Position} {phrase : StmtPhrase}
    (h : Derives rule next ts phrase) : Plain ts := by
  induction h with
  | empty h => simp [h]
  | compound hopened _ hclosed ih => simp [hopened, ih, hclosed]
  | assign target hmark value hclosed =>
      simp [ExprPhrase.Derives.plain target, hmark, ExprPhrase.Derives.plain value, hclosed]
  | call hname hopened arguments hclosed hmark =>
      have harguments := arguments.plain fun _ _ he => ExprPhrase.Derives.plain he
      simp [hname, hopened, harguments, hclosed, hmark]
  | ifElse hstart hopened condition hclosed _ _ hmark _ ihthen ihelse =>
      simp [hstart, hopened, ExprPhrase.Derives.plain condition, hclosed, ihthen, hmark, ihelse]
  | ifOnly hstart hopened condition hclosed _ ih | loop hstart hopened condition hclosed _ ih =>
      simp [hstart, hopened, ExprPhrase.Derives.plain condition, hclosed, ih]
  | nil => exact plain_nil
  | cons _ _ ihhead ihtail => exact plain_append.mpr ⟨ihhead, ihtail⟩

/-! ### Sizes that cannot be read -/

/-- An element of two lists, one behind the other, is in one of them. -/
theorem append_eq_append_cons {α : Type} {xs ys pre post : List α} {x : α}
    (h : xs ++ ys = pre ++ x :: post) :
    (∃ zs, xs = pre ++ x :: zs ∧ post = zs ++ ys) ∨
      ∃ zs, pre = xs ++ zs ∧ ys = zs ++ x :: post := by
  obtain ⟨zs, rfl, hzs⟩ | ⟨zs, rfl, hzs⟩ := List.append_eq_append_iff.mp h
  · exact .inr ⟨zs, rfl, hzs⟩
  · cases zs with
    | nil => exact .inr ⟨[], by simp, hzs.symm⟩
    | cons z zs =>
        obtain ⟨rfl, rfl⟩ := List.cons_eq_cons.mp hzs
        exact .inl ⟨zs, rfl, rfl⟩

/-- At every array type that begins among the tokens, reading breaks off if a
token that is no size follows its bracket, whatever is behind it. -/
def BreaksOff {α : Type} (p : Parser α) (ts : List Token) : Prop :=
  ∀ pre start post, ts = pre ++ start :: post → start.kind = .arrayWord →
    ∃ opened literal post', post = opened :: literal :: post' ∧
      ∀ t d us, Literal.size t = .error (.diagnostic d) →
        ∃ rest, p (pre ++ start :: opened :: t :: us) = .error (.diagnostic d) rest

namespace BreaksOff

variable {α β : Type} {p : Parser α} {f : α → Parser β}

theorem of_plain (h : Plain ts) : BreaksOff p ts := by
  rintro pre start post rfl hstart
  exact absurd hstart (h start (by simp))

/-- What is done after reading does not matter. -/
theorem bind (h : BreaksOff p ts) : BreaksOff (p >>= f) ts := by
  intro pre start post hsplit hstart
  obtain ⟨opened, literal, post', hpost, hbreaks⟩ := h pre start post hsplit hstart
  refine ⟨opened, literal, post', hpost, fun t d us ht => ?_⟩
  obtain ⟨rest, herror⟩ := hbreaks t d us ht
  exact ⟨rest, bind_error herror⟩

/-- A reader breaks off in the tokens that it reads, or else in those that the
next one reads. -/
theorem bind_of_reads {a : α} (h : BreaksOff p ts) (hf : BreaksOff (f a) us)
    (hp : ∀ vs, vs ≠ [] → p (ts ++ vs) = .ok a vs) : BreaksOff (p >>= f) (ts ++ us) := by
  intro pre start post hsplit hstart
  obtain ⟨vs, rfl, rfl⟩ | ⟨vs, rfl, rfl⟩ := append_eq_append_cons hsplit
  · obtain ⟨opened, literal, post', rfl, hbreaks⟩ := h.bind (f := f) pre start vs rfl hstart
    exact ⟨opened, literal, post' ++ us, rfl, hbreaks⟩
  · obtain ⟨opened, literal, post', rfl, hbreaks⟩ := hf vs start post rfl hstart
    refine ⟨opened, literal, post', rfl, fun t d us ht => ?_⟩
    rw [List.append_assoc, bind_eq (hp _ (by simp))]
    exact hbreaks t d us ht

/-- The first reader may look at the token behind what it reads. -/
theorem bind_of_reads_before {a : α} {u : Token} (h : BreaksOff p ts)
    (hf : BreaksOff (f a) (u :: us)) (hu : u.kind ≠ .arrayWord)
    (hp : ∀ vs, p (ts ++ u :: vs) = .ok a (u :: vs)) :
    BreaksOff (p >>= f) (ts ++ u :: us) := by
  intro pre start post hsplit hstart
  obtain ⟨vs, rfl, rfl⟩ | ⟨vs, rfl, hvs⟩ := append_eq_append_cons hsplit
  · obtain ⟨opened, literal, post', rfl, hbreaks⟩ := h.bind (f := f) pre start vs rfl hstart
    exact ⟨opened, literal, post' ++ u :: us, rfl, hbreaks⟩
  · obtain ⟨opened, literal, post', rfl, hbreaks⟩ := hf vs start post hvs hstart
    refine ⟨opened, literal, post', rfl, fun t d us ht => ?_⟩
    cases vs with
    | nil =>
        obtain ⟨rfl, -⟩ := List.cons_eq_cons.mp hvs
        exact absurd hstart hu
    | cons v vs =>
        obtain ⟨rfl, -⟩ := List.cons_eq_cons.mp hvs
        rw [List.append_assoc, List.cons_append, bind_eq (hp _)]
        exact hbreaks t d us ht

/-- A token in front, which begins no array type, is read first. -/
theorem step {a : α} {t : Token} (ht : t.kind ≠ .arrayWord) (h : BreaksOff (f a) ts)
    (hp : ∀ vs, vs ≠ [] → p (t :: vs) = .ok a vs) : BreaksOff (p >>= f) (t :: ts) := by
  rw [← List.singleton_append]
  exact bind_of_reads (.of_plain (by simp [ht])) h hp

theorem take {t : Token} {f : Token → Parser β} (ht : t.kind ≠ .arrayWord)
    (h : BreaksOff (f t) ts) : BreaksOff (Parser.take >>= f) (t :: ts) :=
  step ht h fun _ => take_cons

theorem expect {kind : TokenKind} {t : Token} {f : Token → Parser β} (ht : t.kind = kind)
    (hkind : kind ≠ .arrayWord) (h : BreaksOff (f t) ts) :
    BreaksOff (Parser.expect kind >>= f) (t :: ts) :=
  step (by rwa [ht]) h fun _ => expect_cons ht

/-- Readers that do the same from the first token on break off together. -/
theorem congr_head {q : Parser α} {t : Token} (h : BreaksOff q (t :: ts)) (ht : t.kind ≠ .arrayWord)
    (hp : ∀ us, p (t :: us) = q (t :: us)) : BreaksOff p (t :: ts) := by
  intro pre start post hsplit hstart
  obtain ⟨opened, literal, post', hpost, hbreaks⟩ := h pre start post hsplit hstart
  refine ⟨opened, literal, post', hpost, fun u d us hu => ?_⟩
  cases pre with
  | nil =>
      obtain ⟨rfl, -⟩ := List.cons_eq_cons.mp hsplit
      exact absurd hstart ht
  | cons t' pre =>
      obtain ⟨rfl, -⟩ := List.cons_eq_cons.mp hsplit
      obtain ⟨rest, herror⟩ := hbreaks u d us hu
      exact ⟨rest, (hp _).trans herror⟩

/-- A loop breaks off in the item in which it comes to a stop. -/
theorem collectWhile {more : TokenKind → Bool} {item : Parser α} {D : List Token → α → Prop}
    {xs : List α}
    (start : ∀ ts x, D ts x → ∃ t us, ts = t :: us ∧ t.kind ≠ .arrayWord ∧ more t.kind = true)
    (reads : ∀ ts x us, D ts x → (∀ t ∈ ts, t.Lexical) → us ≠ [] → item (ts ++ us) = .ok x us)
    (breaks : ∀ ts x, D ts x → (∀ t ∈ ts, t.Lexical) → BreaksOff item ts)
    (h : Sequence D ts xs) (hts : ∀ t ∈ ts, t.Lexical) :
    BreaksOff (Parser.collectWhile more item) ts := by
  induction h with
  | nil => exact of_plain plain_nil
  | @cons ts us x xs head _ ih =>
      obtain ⟨hlexical, hus⟩ := List.forall_mem_append.mp hts
      obtain ⟨u, vs, rfl, hu, hmore⟩ := start ts x head
      intro pre first post hsplit hfirst
      obtain ⟨ws, hws, rfl⟩ | ⟨ws, rfl, rfl⟩ := append_eq_append_cons hsplit
      · obtain ⟨opened, literal, post', rfl, hbreaks⟩ :=
          breaks _ x head hlexical pre first ws hws hfirst
        refine ⟨opened, literal, post' ++ us, rfl, fun t d us ht => ?_⟩
        obtain ⟨rest, herror⟩ := hbreaks t d us ht
        cases pre with
        | nil =>
            obtain ⟨rfl, -⟩ := List.cons_eq_cons.mp hws
            exact absurd hfirst hu
        | cons u' pre =>
            obtain ⟨rfl, -⟩ := List.cons_eq_cons.mp hws
            exact ⟨rest, collectWhile_error hmore herror⟩
      · obtain ⟨opened, literal, post', rfl, hbreaks⟩ := ih hus ws first post rfl hfirst
        refine ⟨opened, literal, post', rfl, fun t d us ht => ?_⟩
        obtain ⟨rest, herror⟩ := hbreaks t d us ht
        have hread := reads _ x (ws ++ first :: opened :: t :: us) head hlexical (by simp)
        rw [List.cons_append] at hread
        rw [List.append_assoc, List.cons_append]
        exact ⟨rest, collectWhile_step_error hmore hread (by simp) herror⟩

/-- Tokens behind, among which no array type begins, do not matter. -/
theorem append (h : BreaksOff p ts) (hus : Plain us) : BreaksOff p (ts ++ us) := by
  intro pre start post hsplit hstart
  obtain ⟨vs, rfl, rfl⟩ | ⟨vs, -, rfl⟩ := append_eq_append_cons hsplit
  · obtain ⟨opened, literal, post', rfl, hbreaks⟩ := h pre start vs rfl hstart
    exact ⟨opened, literal, post' ++ us, rfl, hbreaks⟩
  · exact absurd hstart (hus start (by simp))

theorem parenthesised {item : Parser α} {D : List Token → α → Prop} {xs : List α}
    (start : ∀ ts x, D ts x →
      ∃ t us, ts = t :: us ∧ t.kind ≠ .arrayWord ∧ t.kind ≠ .closeParen)
    (reads : ∀ ts x us, D ts x → (∀ t ∈ ts, t.Lexical) → us ≠ [] → item (ts ++ us) = .ok x us)
    (breaks : ∀ ts x, D ts x → (∀ t ∈ ts, t.Lexical) → BreaksOff item ts)
    (h : Separated D ts xs) (hts : ∀ t ∈ ts, t.Lexical) :
    BreaksOff (Parser.parenthesised item) ts := by
  cases h with
  | none => exact .of_plain plain_nil
  | @some ts us x xs first others =>
      obtain ⟨hts, hus⟩ := List.forall_mem_append.mp hts
      have hothers :
          BreaksOff (Parser.collectWhile (· == .comma) (Parser.take >>= fun _ => item)) us := by
        refine .collectWhile (D := AfterComma D) ?_ ?_ ?_ others hus
        · rintro _ x ⟨hmark, -⟩
          exact ⟨_, _, rfl, by simp [hmark]⟩
        · rintro _ x vs ⟨hmark, hx⟩ hlexical hvs
          rw [List.cons_append, bind_take (by simp [hvs])]
          exact reads _ x vs hx (List.forall_mem_cons.mp hlexical).2 hvs
        · rintro _ x ⟨hmark, hx⟩ hlexical
          exact .take (by simp [hmark]) (breaks _ x hx (List.forall_mem_cons.mp hlexical).2)
      have hall : BreaksOff (item >>= fun x =>
          Parser.collectWhile (· == .comma) (Parser.take >>= fun _ => item) >>= fun xs =>
            pure (x :: xs)) (ts ++ us) :=
        .bind_of_reads (a := x) (breaks ts x first hts) hothers.bind fun vs hvs =>
          reads ts x vs first hts hvs
      obtain ⟨t, ts, rfl, harray, hparen⟩ := start ts x first
      refine hall.congr_head harray fun us => ?_
      rw [Parser.parenthesised, bind_currentKind, if_neg hparen]

end BreaksOff

/-! ### Where reading breaks off -/

namespace Grammar

theorem exists_arraySize_error {t : Token} {d : Diagnostic}
    (ht : Literal.size t = .error (.diagnostic d)) (us : List Token) :
    ∃ rest, arraySize (t :: us) = .error (.diagnostic d) rest := by
  obtain ⟨rest, htake⟩ := exists_take t us
  refine ⟨rest, ?_⟩
  rw [arraySize, bind_eq htake, ht]
  rfl

theorem typeWithin_breaks {ts : List Token} {e : TypeExpr} (h : e.Derives ts)
    (hts : ∀ t ∈ ts, t.Lexical) {pre post : List Token} {start : Token}
    (hsplit : ts = pre ++ start :: post) (hstart : start.kind = .arrayWord) :
    ∃ opened literal post', post = opened :: literal :: post' ∧
      ∀ t d us n, Literal.size t = .error (.diagnostic d) → pre.length ≤ n →
        ∃ rest, standard.typeWithin (n + 1) (pre ++ start :: opened :: t :: us) =
          .error (.diagnostic d) rest := by
  induction h generalizing pre with
  | @named name hname =>
      obtain rfl : start = name := List.mem_singleton.mp (by rw [hsplit]; simp)
      cases hname.symm.trans hstart
  | @array first opened literal closed mark ts m e hfirst hopened hliteral hsign hclosed hmark _
      ih =>
      simp only [List.forall_mem_cons] at hts
      obtain ⟨-, -, hlexical, -, -, hts⟩ := hts
      cases pre with
      | nil =>
          obtain ⟨rfl, rfl⟩ := List.cons_eq_cons.mp hsplit
          refine ⟨opened, literal, _, rfl, fun t d us n ht _ => ?_⟩
          obtain ⟨rest, herror⟩ := exists_arraySize_error ht us
          refine ⟨rest, ?_⟩
          rw [List.nil_append, typeWithin, bind_currentKind, hstart, type_standard]
          dsimp only
          rw [TypeRule.readWith, bind_expect hstart (List.cons_ne_nil _ _),
            bind_expect hopened (List.cons_ne_nil _ _), bind_error herror]
      | cons first' pre =>
          obtain ⟨rfl, hrest⟩ := List.cons_eq_cons.mp hsplit
          have hheader : Plain [opened, literal, closed, mark] := by
            simp [hopened, hliteral.kind_ne_array, hclosed, hmark]
          have hrest : [opened, literal, closed, mark] ++ ts = pre ++ start :: post := hrest
          obtain ⟨vs, hvs, -⟩ | ⟨vs, rfl, hvs⟩ := append_eq_append_cons hrest
          · exact absurd hstart (hheader start (by rw [hvs]; simp))
          · obtain ⟨opened', literal', post', hpost, hbreaks⟩ := ih hts hvs
            refine ⟨opened', literal', post', hpost, fun t d us n ht hn => ?_⟩
            simp only [List.length_cons, List.length_append] at hn
            obtain ⟨n, rfl⟩ := Nat.exists_eq_add_of_le' (Nat.le_trans (Nat.le_add_left 1 _) hn)
            obtain ⟨rest, herror⟩ := hbreaks t d us n ht (by simp at hn; omega)
            refine ⟨rest, ?_⟩
            simp only [List.cons_append, List.nil_append]
            rw [typeWithin, bind_currentKind, hfirst, type_standard]
            dsimp only
            rw [TypeRule.readWith, bind_expect hfirst (List.cons_ne_nil _ _),
              bind_expect hopened (List.cons_ne_nil _ _),
              bind_eq (arraySize_cons hlexical hliteral hsign (List.cons_ne_nil _ _)),
              bind_expect hclosed (List.cons_ne_nil _ _), bind_expect hmark (by simp),
              bind_error herror]

theorem typeExpr_breaks {ts : List Token} {e : TypeExpr} (h : e.Derives ts)
    (hts : ∀ t ∈ ts, t.Lexical) : BreaksOff standard.typeExpr ts := by
  intro pre start post hsplit hstart
  obtain ⟨opened, literal, post', hpost, hbreaks⟩ := typeWithin_breaks h hts hsplit hstart
  refine ⟨opened, literal, post', hpost, fun t d us ht => ?_⟩
  rw [typeExpr_apply]
  exact hbreaks t d us _ ht (by simp; omega)

/-- A type that ends a phrase, and marks behind it. -/
theorem typeExpr_bind_breaks {α : Type} {f : TypeExpr → Parser α} {ts us : List Token}
    {e : TypeExpr} (h : e.Derives ts) (hts : ∀ t ∈ ts, t.Lexical) (hus : Plain us) :
    BreaksOff (standard.typeExpr >>= f) (ts ++ us) := by
  refine .bind_of_reads (a := e) (typeExpr_breaks h hts) (.of_plain hus) fun vs hvs => ?_
  obtain ⟨v, vs, rfl⟩ := List.exists_cons_of_ne_nil hvs
  exact typeExpr_of_derives h hts v vs

theorem typeDeclaration_breaks {ts : List Token} {d : TypeDeclaration} (h : d.Derives ts)
    (hts : ∀ t ∈ ts, t.Lexical) : BreaksOff standard.typeDeclaration ts := by
  obtain ⟨hstart, hname, hmark, htype, hclosed⟩ := h
  simp only [List.forall_mem_cons, List.forall_mem_append] at hts
  refine .expect hstart (by decide) (.expect hname (by decide) (.expect hmark (by decide) ?_))
  exact typeExpr_bind_breaks htype hts.2.2.2.1 (by simp [hclosed])

theorem localVariable_breaks {ts : List Token} {v : LocalVariable} (h : v.Derives ts)
    (hts : ∀ t ∈ ts, t.Lexical) : BreaksOff standard.localVariable ts := by
  obtain ⟨hstart, hname, hmark, htype, hclosed⟩ := h
  simp only [List.forall_mem_cons, List.forall_mem_append] at hts
  refine .expect hstart (by decide) (.expect hname (by decide) (.expect hmark (by decide) ?_))
  exact typeExpr_bind_breaks htype hts.2.2.2.1 (by simp [hclosed])

theorem parameter_breaks {ts : List Token} {p : Parameter} (h : p.Derives ts)
    (hts : ∀ t ∈ ts, t.Lexical) : BreaksOff standard.parameter ts := by
  let named (byReference : Bool) : Parser Parameter := do
    let name ← expect .identifier
    let _ ← expect .colon
    let type ← standard.typeExpr
    return ⟨name.value, type, byReference, name.span.start⟩
  have hnamed : ∀ (byReference : Bool) {name mark : Token} {ts : List Token} {type : TypeExpr},
      name.kind = .identifier → mark.kind = .colon → type.Derives ts → (∀ t ∈ ts, t.Lexical) →
      BreaksOff (named byReference) (name :: mark :: ts) := by
    intro byReference name mark ts type hname hmark htype hts
    refine .expect hname (by decide) (.expect hmark (by decide) ?_)
    exact (typeExpr_breaks htype hts).bind
  cases h with
  | byValue hname hmark htype =>
      simp only [List.forall_mem_cons] at hts
      refine (hnamed false hname hmark htype hts.2.2).congr_head (by simp [hname]) fun us => ?_
      rw [parameter, bind_currentKind, hname]
      rfl
  | @byReference start _ _ _ _ hstart hname hmark htype =>
      simp only [List.forall_mem_cons] at hts
      have hmarked : BreaksOff (take >>= fun _ => named true) (start :: _) :=
        .take (by simp [hstart]) (hnamed true hname hmark htype hts.2.2.2)
      refine hmarked.congr_head (by simp [hstart]) fun us => ?_
      rw [parameter, bind_currentKind, hstart]
      rfl

theorem procedure_breaks {ts : List Token} {p : Procedure} (h : p.Derives .nearest ts)
    (hts : ∀ t ∈ ts, t.Lexical) : BreaksOff standard.procedure ts := by
  obtain @⟨start, name, opened, closed, opened', closed', ts, vs, ws, parameters, locals, body,
    hstart, hname, hopened, hparameters, hclosed, hopened', hlocals, hbody, hclosed'⟩ := h
  simp only [List.forall_mem_cons, List.forall_mem_append] at hts
  obtain ⟨-, -, -, hts, -, -, hvs, -⟩ := hts
  have hfirst : ∀ ts (p : Parameter), p.Derives ts →
      ∃ t us, ts = t :: us ∧ t.kind ≠ .arrayWord ∧ t.kind ≠ .closeParen := by
    rintro ts p (⟨hname, -, -⟩ | ⟨hstart, -, -, -⟩)
    · exact ⟨_, _, rfl, by simp [hname]⟩
    · exact ⟨_, _, rfl, by simp [hstart]⟩
  have hvar : ∀ ts (v : LocalVariable), v.Derives ts →
      ∃ t us, ts = t :: us ∧ t.kind ≠ .arrayWord ∧ (t.kind == .varWord) = true := by
    rintro ts v ⟨hstart, -, -, -, -⟩
    exact ⟨_, _, rfl, by simp [hstart]⟩
  have hreads : ∀ ts (p : Parameter) us, p.Derives ts → (∀ t ∈ ts, t.Lexical) → us ≠ [] →
      standard.parameter (ts ++ us) = .ok p us := by
    intro ts p us hp hts hus
    obtain ⟨u, us, rfl⟩ := List.exists_cons_of_ne_nil hus
    exact parameter_of_derives hp hts
  have hinner : BreaksOff (collectWhile (· == .varWord) standard.localVariable)
      (vs ++ (ws ++ [closed'])) := by
    refine .append (.collectWhile hvar (fun ts v us hv hts => localVariable_of_derives hv hts)
      (fun ts v hv hts => localVariable_breaks hv hts) hlocals hvs) ?_
    simp [hbody.plain, hclosed']
  have houter : BreaksOff (parenthesised standard.parameter) ts :=
    .parenthesised hfirst hreads (fun ts p hp hts => parameter_breaks hp hts) hparameters hts
  refine .expect hstart (by decide) (.expect hname (by decide) (.expect hopened (by decide) ?_))
  refine .bind_of_reads_before (a := parameters) houter ?_ (by simp [hclosed]) fun us => ?_
  · exact .expect hclosed (by decide) (.expect hopened' (by decide) hinner.bind)
  · exact parenthesised_of_separated
      (fun ts p hp => (hfirst ts p hp).imp fun t => .imp fun us h => ⟨h.1, h.2.2⟩)
      (fun ts p t us hp hts _ => parameter_of_derives hp hts) hparameters hts hclosed

theorem declaration_breaks {ts : List Token} {d : Declaration} (h : d.Derives .nearest ts)
    (hts : ∀ t ∈ ts, t.Lexical) : BreaksOff standard.declaration ts := by
  cases h with
  | type h =>
      have hbreaks := (typeDeclaration_breaks h hts).bind (f := fun d => pure (Declaration.type d))
      obtain ⟨hstart, -, -, -, -⟩ := h
      refine hbreaks.congr_head (by simp [hstart]) fun us => ?_
      rw [declaration, bind_currentKind, hstart]
  | procedure h =>
      have hbreaks := (procedure_breaks h hts).bind (f := fun d => pure (Declaration.procedure d))
      obtain ⟨hstart, -, -, -, -, -, -, -, -⟩ := h
      refine hbreaks.congr_head (by simp [hstart]) fun us => ?_
      rw [declaration, bind_currentKind, hstart]

theorem program_breaks (file : String) {ts : List Token} {ds : List Declaration}
    (h : Program.Derives .nearest ts ds) (hts : ∀ t ∈ ts, t.Lexical) :
    BreaksOff (standard.program file) ts := by
  refine .bind (.collectWhile ?_ (fun ts d us hd hts => declaration_of_derives hd hts)
    (fun ts d hd hts => declaration_breaks hd hts) h hts)
  rintro ts d (⟨⟨hstart, -, -, -, -⟩⟩ | ⟨⟨hstart, -, -, -, -, -, -, -, -⟩⟩)
  · exact ⟨_, _, rfl, by simp [hstart]⟩
  · exact ⟨_, _, rfl, by simp [hstart]⟩

end Grammar

/-- Tokens that begin a program are read up to a bracket behind `array`. A token
there that is the size of no array is complained about, whatever follows it. -/
theorem parse_error_at_size {file : String} {pre us : List Token} {start opened : Token}
    {p : Program} {rest : List Token} (hlegible : Legible (pre ++ start :: opened :: us))
    (hparse : parse file (pre ++ start :: opened :: us) = .ok p rest)
    (hstart : start.kind = .arrayWord) {t : Token} {d : Diagnostic}
    (ht : Literal.size t = .error (.diagnostic d)) (vs : List Token) :
    ∃ rest', parse file (pre ++ start :: opened :: t :: vs) = .error (.diagnostic d) rest' := by
  obtain ⟨ts, eof, hsplit, hderives, -, -⟩ := (Grammar.runs_program file hlegible).of_ok hparse
  have hlexical : ∀ t ∈ ts, t.Lexical := fun t ht =>
    hlegible.closed.lexical t (by rw [hsplit]; simp [ht])
  obtain ⟨ws, rfl, hws⟩ | ⟨ws, -, hws⟩ := append_eq_append_cons hsplit.symm
  · obtain ⟨opened', literal, post, rfl, hbreaks⟩ :=
      Grammar.program_breaks file hderives hlexical pre start ws rfl hstart
    obtain ⟨rfl, -⟩ := List.cons_eq_cons.mp hws
    exact hbreaks t d vs ht
  · have hlength := congrArg List.length hws
    simp only [List.length_append, List.length_cons, List.length_nil] at hlength
    omega

theorem Literal.size_of_neg {t : Token} {n : Int32} (ht : Literal.value t = .ok n) (hn : n < 0) :
    Literal.size t = .error (Literal.unreadable t) := by
  rw [Literal.size, ht]
  exact if_neg (Int32.not_le.mpr hn)

/-! ### Literals -/

/-- All literal tokens of a source are read as what they spell, and every integer
is the value of the hexadecimal literal of its bits, in either case of the `x`.
In a program that was read from tokens as a source is cut into, the size of
every array is the value of its literal. Where the tokens so far begin such a
program, a literal of a negative value is complained about in the place of a
size. -/
theorem literals_read_as_spelled :
    (∀ source file tokens, tokenize source file = .ok tokens → ∀ t ∈ tokens, t.ReadAsSpelled) ∧
    (∀ (n : Int32) (x : Char) (file : Option String), x = 'x' ∨ x = 'X' →
      ∃ digits, digits.length = 8 ∧ Literal.Spells 16 digits n.toUInt32.toNat ∧
        ∃ t eof, tokenize (String.ofList ('0' :: x :: digits)) file = .ok [t, eof] ∧
          t.kind = .hexNumber ∧ t.value.toList = '0' :: x :: digits ∧ Literal.value t = .ok n) ∧
    (∀ file tokens p rest, Legible tokens → parse file tokens = .ok p rest →
      ∀ d ∈ p.declarations, ∀ e ∈ d.typeExprs, e.Sized tokens) ∧
    (∀ file pre start opened us p rest, Legible (pre ++ start :: opened :: us) →
      parse file (pre ++ start :: opened :: us) = .ok p rest → start.kind = .arrayWord →
      ∀ t n vs, Literal.value t = .ok n → n < 0 →
        ∃ rest', parse file (pre ++ start :: opened :: t :: vs) =
          .error (Literal.unreadable t) rest') := by
  refine ⟨fun source file tokens htokens t ht => ?_,
    fun n x file hx => exists_hexadecimal_of_int32 n hx file,
    fun file tokens p rest hlegible hparse d hd e he => ?_,
    fun file pre start opened us p rest hlegible hparse hstart t n vs ht hn =>
      parse_error_at_size hlegible hparse hstart (Literal.size_of_neg ht hn) vs⟩
  · exact ((legible_of_tokenize htokens).closed.lexical t ht).readAsSpelled
  · obtain ⟨ts, eof, rfl, hderives, -, -⟩ := (Grammar.runs_program file hlegible).of_ok hparse
    have hsized : ∀ d ∈ p.declarations, ∀ e ∈ d.typeExprs, e.Sized (ts ++ [eof]) :=
      Sequence.forall_placed (fun vs d hd hvs => hd.sized hvs hlegible.closed.lexical) hderives
        (List.prefix_append ts [eof]).isInfix
    exact hsized d hd e he

/-- A character of two bytes, a hexadecimal number whose highest bit is set and a
decimal number that is too large; a size in hexadecimal; a negative size. -/
theorem literals_read_as_spelled_bits :
    let t (kind : TokenKind) (value : String) : Token := ⟨kind, value, ⟨.null, .null⟩⟩
    (∃ tokens, tokenize "'é' 0X0fffffffF 2147483648" none = .ok tokens ∧
      ∀ t ∈ tokens, t.ReadAsSpelled) ∧
    (∃ tokens p rest, tokenize "type t = array [0x10] of int;" (some "a.spl") = .ok tokens ∧
      parse "a.spl" tokens = .ok p rest ∧
      ∀ d ∈ p.declarations, ∀ e ∈ d.typeExprs, e.Sized tokens) ∧
    ∃ rest, parse "a.spl" [t .typeWord "type", t .identifier "t", t .equals "=",
      t .arrayWord "array", t .openBracket "[", t .hexNumber "0xffffffff", t .eof "EOF"] =
        .error (Literal.unreadable (t .hexNumber "0xffffffff")) rest := by
  intro t
  refine ⟨?_, ?_, ?_⟩
  · have hsome : (tokenize "'é' 0X0fffffffF 2147483648" none).toOption.isSome = true := by
      decide +kernel
    obtain ⟨tokens, htokens⟩ := exists_ok_of_isSome hsome
    exact ⟨tokens, htokens, literals_read_as_spelled.1 _ _ _ htokens⟩
  · have hview : (parseSource "type t = array [0x10] of int;" "a.spl").toOption.map
        (fun _ => ()) = some () := by
      decide +kernel
    obtain ⟨tokens, rest, p, htokens, hparse, -⟩ := exists_parse_of_map hview
    exact ⟨tokens, p, rest, htokens, hparse,
      literals_read_as_spelled.2.2.1 _ _ _ _ (legible_of_tokenize htokens) hparse⟩
  · let pre := [t .typeWord "type", t .identifier "t", t .equals "="]
    let us := [t .number "1", t .closeBracket "]", t .ofWord "of", t .identifier "int",
      t .semicolon ";"]
    have hinside : Inside (pre ++ t .arrayWord "array" :: t .openBracket "[" :: us) := by
      simp [pre, us, t, Inside, Token.Lexical]
    have hlegible := (Legible.last (t := t .eof "EOF") rfl).append hinside
    have hsome : (parseTokens (pre ++ t .arrayWord "array" :: t .openBracket "[" ::
        (us ++ [t .eof "EOF"])) "a.spl").toOption.isSome = true := by
      decide +kernel
    obtain ⟨p, hparse⟩ := exists_ok_of_isSome hsome
    obtain ⟨rest, hparse⟩ := parseTokens_eq_ok_iff.mp hparse
    exact literals_read_as_spelled.2.2.2 _ _ _ _ _ _ _ hlegible hparse rfl
      (t .hexNumber "0xffffffff") (-1) [t .eof "EOF"] (by decide +kernel) (by decide)

end Spl
