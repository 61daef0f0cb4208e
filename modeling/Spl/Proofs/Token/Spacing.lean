import Spl.Proofs.Token.Relaying

/-!
Texts that are lexemes with white space between them. Such a text is cut into
just these lexemes, however much white space there is: it is a layout of the
tokens that the lexemes stand for.
-/

namespace Spl

/-! ### Lexemes -/

/-- The text is all of a lexeme of a token of the kind. -/
def Lexeme (s : String) (kind : TokenKind) : Prop :=
  ∃ p : Pattern, p.Matches s.toList ∧ p.kind? s.toList = some kind

/-- The token is the one that the lexeme stands for, wherever it stands. -/
structure Token.Reads (t : Token) (s : String) : Prop where
  lexeme : Lexeme s t.kind
  written : t.written = s.toList

namespace Lexeme

variable {s : String} {kind kind' : TokenKind}

theorem kind_unique (h : Lexeme s kind) (h' : Lexeme s kind') : kind = kind' := by
  obtain ⟨p, hp, hkind⟩ := h
  obtain ⟨q, hq, hkind'⟩ := h'
  obtain rfl := hp.munches.unique hq.munches
  exact Option.some.inj (hkind.symm.trans hkind')

theorem iff_first? :
    Lexeme s kind ↔ ∃ p, Pattern.first? s.toList = some (p, s.toList) ∧
      p.kind? s.toList = some kind := by
  refine exists_congr fun p => and_congr_left fun _ => ?_
  rw [Pattern.first?_eq_some_iff]
  exact ⟨Pattern.Matches.munches, Pattern.Munches.matched⟩

instance : Decidable (Lexeme s kind) :=
  decidable_of_iff ((Pattern.first? s.toList).any fun (p, lexeme) =>
      lexeme = s.toList ∧ p.kind? lexeme = some kind) <| by
    rw [iff_first?, Option.any_eq_true]
    constructor
    · rintro ⟨⟨p, lexeme⟩, hfirst, h⟩
      obtain ⟨rfl, hkind⟩ := of_decide_eq_true h
      exact ⟨p, hfirst, hkind⟩
    · rintro ⟨p, hfirst, hkind⟩
      exact ⟨(p, s.toList), hfirst, decide_eq_true ⟨rfl, hkind⟩⟩

example : Lexeme "<=" .lessEquals := by decide

end Lexeme

namespace Token.Reads

variable {t : Token} {s : String} {kind : TokenKind}

theorem kind_eq (h : t.Reads s) (hs : Lexeme s kind) : t.kind = kind :=
  h.lexeme.kind_unique hs

/-- Only characters stand in quotes. -/
theorem value_eq (h : t.Reads s) (hkind : t.kind ≠ .character) : t.value = s := by
  have hwritten := h.written
  rw [Token.written, TokenKind.write_of_ne hkind] at hwritten
  exact String.ext hwritten

end Token.Reads

section Tokens

variable {ss : List String} {ts us : List Token}

theorem exists_reads (hss : ∀ s ∈ ss, ∃ kind, Lexeme s kind) :
    ∃ ts, List.Forall₂ Token.Reads ts ss := by
  induction ss with
  | nil => exact ⟨[], .nil⟩
  | cons s ss ih =>
      obtain ⟨⟨kind, p, hp, hkind⟩, hss⟩ := List.forall_mem_cons.mp hss
      obtain ⟨value, hvalue⟩ := Pattern.exists_write hp hkind
      obtain ⟨ts, hts⟩ := ih hss
      exact ⟨⟨kind, value, .null, .null⟩ :: ts, .cons ⟨⟨p, hp, hkind⟩, hvalue⟩ hts⟩

/-- Which lexemes tokens are read from is a matter of what they say only. -/
theorem reads_of_content (h : us.map Token.content = ts.map Token.content)
    (hts : List.Forall₂ Token.Reads ts ss) : List.Forall₂ Token.Reads us ss := by
  induction hts generalizing us with
  | nil =>
      obtain rfl := List.map_eq_nil_iff.mp h
      exact .nil
  | @cons t s ts ss ht _ ih =>
      obtain ⟨u, us, rfl, hu, hus⟩ := List.map_eq_cons_iff.mp h
      obtain ⟨hkind, hvalue⟩ := Prod.mk.inj hu
      refine .cons ⟨hkind ▸ ht.lexeme, ?_⟩ (ih hus)
      rw [Token.written, hkind, hvalue]
      exact ht.written

theorem isLexeme_of_reads (h : List.Forall₂ Token.Reads ts ss) : ∀ t ∈ ts, t.IsLexeme := by
  induction h with
  | nil => simp
  | cons ht _ ih =>
      obtain ⟨p, hp, hkind⟩ := ht.lexeme
      rw [← ht.written] at hp hkind
      exact List.forall_mem_cons.mpr ⟨⟨p, hp, hkind⟩, ih⟩

end Tokens

/-! ### Texts -/

/-- White space and a lexeme by turns, and white space at the end. -/
inductive SpacedBehind : List String → List Char → Prop
  | done {gap : List Char} (blank : Blank gap) : SpacedBehind [] gap
  | lexeme {gap cs : List Char} {s : String} {ss : List String} (nonempty : gap ≠ [])
      (blank : Blank gap) (others : SpacedBehind ss cs) :
      SpacedBehind (s :: ss) (gap ++ (s.toList ++ cs))

/-- The lexemes with some white space between any two of them. There may be
white space in front of them and behind them, too. -/
inductive Spaced : List String → List Char → Prop
  | none {gap : List Char} (blank : Blank gap) : Spaced [] gap
  | some {gap cs : List Char} {s : String} {ss : List String} (blank : Blank gap)
      (others : SpacedBehind ss cs) : Spaced (s :: ss) (gap ++ (s.toList ++ cs))

section Texts

variable {cs : List Char} {ss : List String} {ts us : List Token}

/-- The same white space may stand in all places. -/
theorem spaced_intercalate {separator : String} (hne : separator.toList ≠ [])
    (hblank : Blank separator.toList) (ss : List String) :
    Spaced ss (separator.intercalate ss).toList := by
  have hnil : Blank [] := by simp [Blank]
  have hbehind : ∀ ss (s : String), ∃ cs, SpacedBehind ss cs ∧
      separator.toList.intercalate ((s :: ss).map String.toList) = s.toList ++ cs := by
    intro ss
    induction ss with
    | nil => exact fun s => ⟨[], .done hnil, by simp⟩
    | cons s' ss ih =>
        intro s
        obtain ⟨cs, hcs, htext⟩ := ih s'
        refine ⟨_, .lexeme hne hblank hcs, ?_⟩
        rw [← htext, List.map_cons, List.map_cons, List.intercalate_cons_cons, List.append_assoc]
  rw [String.toList_intercalate]
  cases ss with
  | nil => exact .none hnil
  | cons s ss =>
      obtain ⟨cs, hcs, htext⟩ := hbehind ss s
      rw [htext]
      exact .some hnil hcs

/-- Lexemes with white space between them are tokens that are written with it. -/
theorem SpacedBehind.written (h : SpacedBehind ss cs) (hts : List.Forall₂ Token.Reads ts ss)
    (t : Token) : Written (t :: ts) (t.written ++ cs) := by
  induction h generalizing ts t with
  | @done gap hblank =>
      cases hts
      rw [← List.append_nil gap]
      exact .cons (.of_blank hblank) (fun hne => absurd rfl hne)
        (fun _ => hblank.head?_ne_slash) .nil
  | @lexeme gap cs s ss hne hblank _ ih =>
      cases hts with
      | @cons u _ us _ hu hus =>
          rw [← List.append_nil gap, ← hu.written]
          exact .separated hne hblank .nil (ih hus u)

theorem Spaced.relaid (h : Spaced ss cs) (hts : List.Forall₂ Token.Reads ts ss) : Relaid ts cs := by
  cases h with
  | none hblank =>
      cases hts
      exact ⟨cs, [], (List.append_nil cs).symm, .of_blank hblank, .nil⟩
  | @some gap _ _ _ hblank hothers =>
      cases hts with
      | @cons t _ ts _ ht hts =>
          rw [← ht.written]
          exact ⟨gap, _, rfl, .of_blank hblank, hothers.written hts t⟩

/-- A text is cut into its lexemes. -/
theorem Spaced.exists_tokenize {source : String} (h : Spaced ss source.toList)
    (hss : ∀ s ∈ ss, ∃ kind, Lexeme s kind) (hlimit : source.utf8ByteSize < Count.limit)
    (file : Option String) :
    ∃ ts eof, tokenize source file = .ok (ts ++ [eof]) ∧ eof.kind = .eof ∧
      List.Forall₂ Token.Reads ts ss ∧ ∀ t ∈ ts, t.Lexical := by
  obtain ⟨ts, hts⟩ := exists_reads hss
  obtain ⟨us, htiles, hcontent⟩ := (h.relaid hts).exists_tiling (isLexeme_of_reads hts) []
  exact ⟨us, _, tokenize_of_covered hlimit htiles, rfl, reads_of_content hcontent hts,
    fun t ht => (htiles.forall_lexical t ht).2⟩

end Texts

end Spl
