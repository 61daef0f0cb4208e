import Spl.Proofs.Token.Lexing

/-!
Gaps between tokens: white space and comments. White space and comments in any
order are tiles that stand for no tokens, and the lexeme of a token ends where
such a gap begins.
-/

namespace Spl

theorem Pattern.Matches.munches {p : Pattern} {lexeme : List Char} (h : p.Matches lexeme) :
    p.Munches lexeme lexeme :=
  ⟨h, List.prefix_rfl, fun _ _ _ hother => hother.length_le⟩

/-! ### White space -/

def Blank (gap : List Char) : Prop :=
  ∀ c ∈ gap, Text.isBlank c = true

theorem Blank.head?_ne_slash {gap : List Char} (h : Blank gap) : gap.head? ≠ some '/' :=
  fun hslash => absurd (h '/' (List.mem_of_mem_head? hslash)) (by decide)

namespace Pattern

variable {p : Pattern} {lexeme gap next : List Char} {c : Char}

theorem not_isBlank_of_isWordChar (h : isWordChar c = true) : ¬ Text.isBlank c = true := by
  intro hblank
  have hblanks : blanks.Matches [c] := .blanks (List.cons_ne_nil c []) (by simpa using hblank)
  rcases Bool.or_eq_true_iff.mp h with hstart | hdigit
  · exact not_prefix_of_apart (by decide) (.word hstart (by simp)) hblanks List.prefix_rfl
      List.prefix_rfl
  · exact not_prefix_of_apart (by decide)
      (.decimal (List.cons_ne_nil c []) (by simpa using hdigit)) hblanks List.prefix_rfl
      List.prefix_rfl

theorem isWordChar_of_isHexDigit (h : isHexDigit c = true) : isWordChar c = true := by
  have hascii : ∀ n < 128, isHexDigit (Char.ofNat n) = true → isWordChar (Char.ofNat n) = true := by
    decide +kernel
  exact Literal.forall_ascii (P := fun c => isHexDigit c = true → isWordChar c = true) hascii
    (Literal.toNat_lt_of_isHexDigit h) h

/-- The patterns of words and numbers. -/
def ofWordChars : List Pattern := [word, hexadecimal, decimal]

theorem Matches.isWordChar_of_mem_tail (h : p.Matches lexeme) (hp : p ∈ ofWordChars)
    (hmem : c ∈ lexeme.tail) : isWordChar c = true := by
  cases h with
  | word _ hothers => exact hothers c hmem
  | hexadecimal hx _ hdigits =>
      rcases List.mem_cons.mp hmem with rfl | hmem
      · rcases hx with rfl | rfl <;> decide
      · exact isWordChar_of_isHexDigit (hdigits c hmem)
  | decimal _ hdigits =>
      exact isWordChar_of_isHexDigit
        (Literal.isHexDigit_of_isDigit (hdigits c (List.mem_of_mem_tail hmem)))
  | newline | character | blanks | comment => exact absurd hp (by decide)
  | mark => simp [ofWordChars] at hp

/-- White space begins with the one, a comment with the other. -/
def GapStart (c : Char) : Prop :=
  Text.isBlank c = true ∨ c = '/'

/-- What begins a gap goes on with white space, with comments and with what stands
between quotes only. -/
theorem Matches.eq_of_gapStart (h : p.Matches lexeme) (hmem : c ∈ lexeme.tail) (hc : GapStart c) :
    p = .blanks ∨ p = .comment ∨ p = .quotedCharacter := by
  have hword : ¬ isWordChar c = true := by
    rcases hc with hblank | rfl
    · exact fun hword => not_isBlank_of_isWordChar hword hblank
    · decide
  have hp : p ∉ ofWordChars := fun hp => hword (h.isWordChar_of_mem_tail hp hmem)
  cases h with
  | word | hexadecimal | decimal => exact absurd (by decide) hp
  | newline | character => exact .inr (.inr rfl)
  | blanks => exact .inl rfl
  | comment => exact .inr (.inl rfl)
  | mark known =>
      have htails : table.all (fun
          | .mark form _ => form.tail.all (· == '=')
          | _ => true) = true := by
        decide +kernel
      obtain rfl : c = '=' := by
        simpa using List.all_eq_true.mp (List.all_eq_true.mp htails _ known) c hmem
      rcases hc with hblank | heq
      · exact absurd hblank (by decide)
      · exact absurd heq (by decide)

/-- The beginning of a comment is one, unless it stops within the slashes. -/
theorem Matches.comment_of_append (h : Matches .comment (lexeme ++ c :: next))
    (hslash : c = '/' → lexeme ≠ ['/']) (hne : lexeme ≠ []) : Matches .comment lexeme := by
  generalize htext : lexeme ++ c :: next = text at h
  cases h with
  | @comment line hline =>
      match lexeme with
      | [] => exact absurd rfl hne
      | [d] =>
          obtain ⟨rfl, rfl, -⟩ : d = '/' ∧ c = '/' ∧ next = line := by simpa using htext
          exact absurd rfl (hslash rfl)
      | d :: e :: lexeme =>
          obtain ⟨rfl, rfl, rfl⟩ : d = '/' ∧ e = '/' ∧ lexeme ++ c :: next = line := by
            simpa using htext
          exact .comment fun f hf => hline f (List.mem_append_left _ hf)

/-- No text goes on to a character between quotes, which is as short as it can be. -/
theorem Matches.not_quotedCharacter_append (h : p.Matches lexeme) (hne : next ≠ []) :
    ¬ Matches .quotedCharacter (lexeme ++ next) := by
  intro h'
  have hquotes : ∀ p ∈ table, p = .quotedCharacter ∨ p.apart .quotedCharacter = true := by
    decide
  rcases hquotes p h.mem_table with rfl | hapart
  · obtain ⟨c, next, rfl⟩ := List.exists_cons_of_ne_nil hne
    obtain ⟨inner, rfl, hinner⟩ := h.exists_inner
    obtain ⟨inner', htext, hinner'⟩ := h'.exists_inner
    rcases hinner with rfl | ⟨d, rfl, -⟩ <;> rcases hinner' with rfl | ⟨e, rfl, -⟩ <;>
      simp at htext
  · exact not_prefix_of_apart hapart h h' (List.prefix_append lexeme _) List.prefix_rfl

/-- The lexeme of a token ends in front of white space and of comments, except
that a slash in front of a comment would be the first of three. -/
theorem Matches.munches_of_gapStart (h : p.Matches lexeme) {kind : TokenKind}
    (hkind : p.kind? lexeme = some kind) (hnext : ∀ c, next.head? = some c → GapStart c)
    (hslash : lexeme = ['/'] → next.head? ≠ some '/') : p.Munches lexeme (lexeme ++ next) := by
  refine h.munches_append fun q c more hmore hq => ?_
  obtain ⟨next, rfl⟩ := hmore
  -- A longer text would have the beginning of the gap in it, behind all of the lexeme.
  have hmem : c ∈ (lexeme ++ c :: more).tail := by
    rw [List.tail_append_of_ne_nil h.ne_nil]
    exact List.mem_append_right _ List.mem_cons_self
  rcases hq.eq_of_gapStart hmem (hnext c rfl) with rfl | rfl | rfl
  · cases hq with
    | blanks _ hblank =>
        obtain rfl := h.munches.unique (q := .blanks)
          (Matches.blanks h.ne_nil fun d hd => hblank d (List.mem_append_left _ hd)).munches
        cases hkind
  · have hfirst : c = '/' → lexeme ≠ ['/'] := by
      rintro rfl hlexeme
      exact hslash hlexeme rfl
    obtain rfl := h.munches.unique (hq.comment_of_append hfirst h.ne_nil).munches
    cases hkind
  · exact h.not_quotedCharacter_append (List.cons_ne_nil c more) hq

theorem eq_blanks_or_apart (h : p.Matches lexeme) : p = .blanks ∨ apart .blanks p = true := by
  have hapart : ∀ p ∈ table, p = .blanks ∨ apart .blanks p = true := by decide
  exact hapart p h.mem_table

/-- A run of white space ends in front of any other character. -/
theorem munches_blanks (hne : gap ≠ []) (hgap : Blank gap)
    (hnext : ∀ c, next.head? = some c → ¬ Text.isBlank c = true) :
    Munches .blanks gap (gap ++ next) := by
  have hmatches : Matches .blanks gap := .blanks hne hgap
  refine hmatches.munches_append fun q c more hmore hq => ?_
  obtain ⟨next, rfl⟩ := hmore
  rcases eq_blanks_or_apart hq with rfl | hapart
  · cases hq with
    | blanks _ hblank => exact hnext c rfl (hblank c (by simp))
  · exact not_prefix_of_apart hapart hmatches hq (List.prefix_append gap _) List.prefix_rfl

theorem Matches.not_isBlank_head (h : p.Matches lexeme) (hp : p ≠ .blanks)
    (hc : lexeme.head? = some c) : ¬ Text.isBlank c = true := by
  intro hblank
  obtain ⟨lexeme, rfl⟩ := List.head?_eq_some_iff.mp hc
  have hblanks : Matches .blanks [c] := .blanks (List.cons_ne_nil c []) (by simpa using hblank)
  rcases eq_blanks_or_apart h with rfl | hapart
  · exact hp rfl
  · exact not_prefix_of_apart hapart hblanks h ⟨lexeme, rfl⟩ List.prefix_rfl

end Pattern

/-! ### White space and comments -/

/-- White space, and comments that end with their lines, in any order. -/
inductive Mixed : List Char → Prop
  | nil : Mixed []
  | blank {c : Char} {cs : List Char} (hc : Text.isBlank c = true) (others : Mixed cs) :
      Mixed (c :: cs)
  | comment {line cs : List Char} (hline : ∀ c ∈ line, c ≠ '\n') (others : Mixed cs) :
      Mixed ('/' :: '/' :: (line ++ '\n' :: cs))

namespace Mixed

variable {gap : List Char} {c : Char}

theorem blanks_append {run : List Char} (hrun : Blank run) (h : Mixed gap) :
    Mixed (run ++ gap) := by
  induction run with
  | nil => exact h
  | cons c run ih =>
      obtain ⟨hc, hrun⟩ := List.forall_mem_cons.mp hrun
      exact .blank hc (ih hrun)

theorem of_blank (h : Blank gap) : Mixed gap := by
  rw [← List.append_nil gap]
  exact .blanks_append h .nil

theorem gapStart (h : Mixed gap) (hc : gap.head? = some c) : Pattern.GapStart c := by
  cases h with
  | nil => cases hc
  | blank hblank _ =>
      obtain rfl := Option.some.inj hc
      exact .inl hblank
  | comment _ _ =>
      obtain rfl := Option.some.inj hc
      exact .inr rfl

end Mixed

theorem Pattern.Matches.not_mem_break {text : List Char} (h : Matches .comment text) :
    '\n' ∉ text := by
  cases h with
  | comment hline =>
      have hslash : '\n' ≠ '/' := by decide
      simpa [hslash] using fun hmem => hline '\n' hmem rfl

/-- A comment ends in front of the end of its line. -/
theorem Pattern.munches_comment {line rest : List Char} (hline : ∀ c ∈ line, c ≠ '\n') :
    Munches .comment ('/' :: '/' :: line) ('/' :: '/' :: line ++ '\n' :: rest) := by
  have hmatches : Matches .comment ('/' :: '/' :: line) := .comment hline
  refine hmatches.munches_append fun q c more hmore hq => ?_
  obtain ⟨rfl, -⟩ := List.cons_prefix_cons.mp hmore
  rcases hq.eq_of_gapStart (c := '\n') (by simp) (.inl (by decide)) with rfl | rfl | rfl
  · cases hq with
    | blanks _ hblank => exact absurd (hblank '/' (by simp)) (by decide)
  · exact hq.not_mem_break (by simp)
  · exact hmatches.not_quotedCharacter_append (List.cons_ne_nil _ _) hq

/-! ### Tiles -/

section Tiles

variable {file : String} {read gap cs rest : List Char} {ts : List Token}

/-- White space in front of tiles is one more of them, or a part of the first. -/
theorem Tiling.blanks_append (hne : gap ≠ []) (hgap : Blank gap)
    (h : Tiling file (read ++ gap) cs ts rest) (hrest : Pattern.first? rest = none) :
    Tiling file read (gap ++ cs) ts rest := by
  cases h with
  | done =>
      refine .layout (Pattern.munches_blanks hne hgap fun c hc hblank => ?_) rfl .done
      have hblanks : Pattern.Matches .blanks [c] :=
        .blanks (List.cons_ne_nil c []) (by simpa using hblank)
      obtain ⟨rest, rfl⟩ := List.head?_eq_some_iff.mp hc
      exact Pattern.first?_eq_none_iff.mp hrest _ _ hblanks ⟨rest, rfl⟩
  | @token _ lexeme cs _ p t ts hlexeme hkind hwritten hspan htail =>
      refine .layout (Pattern.munches_blanks hne hgap fun c hc => ?_) rfl
        (.token hlexeme hkind hwritten hspan htail)
      rw [List.head?_append_of_ne_nil _ hlexeme.matched.ne_nil] at hc
      exact hlexeme.matched.not_isBlank_head (by rintro rfl; cases hkind) hc
  | @layout _ lexeme cs _ p _ hlexeme hkind htail =>
      by_cases hp : p = .blanks
      · subst hp
        have hblank : Blank lexeme := by
          cases hlexeme.matched with
          | blanks _ hblank => exact hblank
        rw [← List.append_assoc]
        rw [List.append_assoc read] at htail
        refine .layout (Pattern.munches_blanks (List.append_ne_nil_of_left_ne_nil hne _)
          (List.forall_mem_append.mpr ⟨hgap, hblank⟩) fun c hc hnext => ?_) rfl htail
        refine hlexeme.not_matches_head (q := .blanks) hc (.blanks (by simp) ?_)
        exact List.forall_mem_append.mpr ⟨hblank, by simpa using hnext⟩
      · refine .layout (Pattern.munches_blanks hne hgap fun c hc => ?_) rfl
          (.layout hlexeme hkind htail)
        rw [List.head?_append_of_ne_nil _ hlexeme.matched.ne_nil] at hc
        exact hlexeme.matched.not_isBlank_head hp hc

theorem Tiling.blank_cons {c : Char} (hc : Text.isBlank c = true)
    (h : Tiling file (read ++ [c]) cs ts rest) (hrest : Pattern.first? rest = none) :
    Tiling file read (c :: cs) ts rest :=
  .blanks_append (List.cons_ne_nil c []) (by simpa [Blank] using hc) h hrest

/-- A gap consists of tiles that stand for no tokens. -/
theorem Tiling.mixed (hgap : Mixed gap) (h : Tiling file (read ++ gap) cs ts []) :
    Tiling file read (gap ++ cs) ts [] := by
  induction hgap generalizing read with
  | nil => rwa [List.append_nil] at h
  | @blank c gap hc _ ih =>
      exact .blank_cons hc (ih (by simpa using h)) rfl
  | @comment line gap hline _ ih =>
      have htail : Tiling file (read ++ '/' :: '/' :: line) ('\n' :: (gap ++ cs)) ts [] :=
        .blank_cons (by decide) (ih (by simpa using h)) rfl
      simpa using Tiling.layout (Pattern.munches_comment hline) rfl htail

end Tiles

end Spl
