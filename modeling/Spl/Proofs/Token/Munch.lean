import Mathlib.Data.List.TakeWhile
import Spl.Token.Lexeme

/-!
The patterns as sets of texts. A text can begin with texts of several patterns:
with `<` and `<=`, with `0` and `0x1f`, with a slash and a comment. The table
is ordered so that the first pattern that is found is the one with the longest
text, and no other pattern has that text.
-/

namespace Spl

namespace Pattern

/-- The texts of a pattern. -/
inductive Matches : Pattern → List Char → Prop
  | word {c : Char} {cs : List Char} (start : isWordStart c = true)
      (others : ∀ d ∈ cs, isWordChar d = true) : Matches .word (c :: cs)
  | hexadecimal {x : Char} {digits : List Char} (mark : x = 'x' ∨ x = 'X') (nonempty : digits ≠ [])
      (hdigits : ∀ d ∈ digits, isHexDigit d = true) : Matches .hexadecimal ('0' :: x :: digits)
  | decimal {digits : List Char} (nonempty : digits ≠ [])
      (hdigits : ∀ d ∈ digits, d.isDigit = true) : Matches .decimal digits
  | newline : Matches .quotedCharacter ['\'', '\\', 'n', '\'']
  | character {c : Char} (quote : c ≠ '\'') (backslash : c ≠ '\\') :
      Matches .quotedCharacter ['\'', c, '\'']
  | blanks {cs : List Char} (nonempty : cs ≠ []) (hblank : ∀ c ∈ cs, Text.isBlank c = true) :
      Matches .blanks cs
  | comment {cs : List Char} (line : ∀ c ∈ cs, c ≠ '\n') : Matches .comment ('/' :: '/' :: cs)
  | mark {form : List Char} {kind : TokenKind} (known : mark form kind ∈ table) :
      Matches (mark form kind) form

/-- The text is the longest of all texts of patterns that `cs` begins with. -/
structure Munches (p : Pattern) (lexeme cs : List Char) : Prop where
  matched : p.Matches lexeme
  starts : lexeme <+: cs
  longest : ∀ q other, Matches q other → other <+: cs → other.length ≤ lexeme.length

variable {p q : Pattern} {cs lexeme other : List Char}

theorem Matches.mem_table (h : p.Matches lexeme) : p ∈ table := by
  cases h with
  | mark known => exact known
  | word | hexadecimal | decimal | newline | character | blanks | comment => decide

/-- A mark has a form without white space, and its kind is neither that of a
literal nor that of the end. -/
theorem mark_of_mem {form : List Char} {kind : TokenKind} (h : mark form kind ∈ table) :
    form ≠ [] ∧ (∀ c ∈ form, Text.isBlank c = false) ∧ kind.carriesValue = false ∧
      kind ≠ .eof := by
  have hmarks : table.all (fun
      | mark form kind => form ≠ [] ∧ (form.all fun c => !Text.isBlank c) = true ∧
          kind.carriesValue = false ∧ kind ≠ .eof
      | _ => true) = true := by
    decide +kernel
  obtain ⟨hne, hblank, hrest⟩ := of_decide_eq_true (List.all_eq_true.mp hmarks _ h)
  exact ⟨hne, fun c hc => by simpa using List.all_eq_true.mp hblank c hc, hrest⟩

theorem Matches.ne_nil (h : p.Matches lexeme) : lexeme ≠ [] := by
  cases h with
  | decimal hne _ | blanks hne _ => exact hne
  | mark known => exact (mark_of_mem known).1
  | word | hexadecimal | newline | character | comment => exact List.cons_ne_nil _ _

/-- A text is the longest one if no text of a pattern goes on behind it. -/
theorem Matches.munches_append {next : List Char} (h : p.Matches lexeme)
    (hnext : ∀ q c more, c :: more <+: next → ¬ Matches q (lexeme ++ c :: more)) :
    p.Munches lexeme (lexeme ++ next) := by
  refine ⟨h, List.prefix_append lexeme next, fun q other hq hother => ?_⟩
  by_contra hlonger
  obtain ⟨more, rfl⟩ := List.prefix_of_prefix_length_le (List.prefix_append lexeme next) hother
    (by omega)
  cases more with
  | nil => simp at hlonger
  | cons c more => exact hnext q c more ((List.prefix_append_right_inj lexeme).mp hother) hq

/-- No pattern has a text that goes on behind a longest one. -/
theorem Munches.not_matches {next more : List Char} (h : p.Munches lexeme (lexeme ++ next))
    (hne : more ≠ []) (hmore : more <+: next) : ¬ q.Matches (lexeme ++ more) := by
  intro hq
  have hlength := h.longest q _ hq ((List.prefix_append_right_inj lexeme).mpr hmore)
  have hpos := List.length_pos_iff.mpr hne
  rw [List.length_append] at hlength
  omega

theorem Munches.not_matches_head {next : List Char} {c : Char}
    (h : p.Munches lexeme (lexeme ++ next)) (hc : next.head? = some c) :
    ¬ q.Matches (lexeme ++ [c]) := by
  obtain ⟨next, rfl⟩ := List.head?_eq_some_iff.mp hc
  exact h.not_matches (List.cons_ne_nil c []) ⟨next, rfl⟩

/-! ### One pattern -/

theorem matches_of_match? (hp : p ∈ table) (h : p.match? cs = some lexeme) : p.Matches lexeme := by
  unfold match? at h
  split at h
  · next hstart =>
      obtain ⟨hc, h⟩ := Option.ite_none_right_eq_some.mp h
      obtain rfl := Option.some.inj h
      exact .word hc fun d hd => List.mem_takeWhile_imp hd
  · obtain ⟨hx, h⟩ := Option.ite_none_right_eq_some.mp h
    obtain ⟨digits, hdigits, rfl⟩ := Option.map_eq_some_iff.mp h
    obtain ⟨rfl, hne⟩ := nonempty_eq_some_iff.mp hdigits
    exact .hexadecimal hx hne fun d hd => List.mem_takeWhile_imp hd
  · obtain ⟨rfl, hne⟩ := nonempty_eq_some_iff.mp h
    exact .decimal hne fun d hd => List.mem_takeWhile_imp hd
  · obtain rfl := Option.some.inj h
    exact .newline
  · obtain ⟨hc, h⟩ := Option.ite_none_left_eq_some.mp h
    obtain rfl := Option.some.inj h
    obtain ⟨hquote, hbackslash⟩ := not_or.mp hc
    exact .character hquote hbackslash
  · obtain ⟨rfl, hne⟩ := nonempty_eq_some_iff.mp h
    exact .blanks hne fun c hc => List.mem_takeWhile_imp hc
  · obtain rfl := Option.some.inj h
    refine .comment fun c hc => ?_
    simpa using List.mem_takeWhile_imp hc
  · obtain ⟨-, h⟩ := Option.ite_none_right_eq_some.mp h
    obtain rfl := Option.some.inj h
    exact .mark hp
  · cases h

/-- A run of characters of a class reaches at least as far as any text of the class. -/
theorem length_le_takeWhile {f : Char → Bool} (h : ∀ c ∈ lexeme, f c = true) (hcs : lexeme <+: cs) :
    lexeme.length ≤ (cs.takeWhile f).length := by
  obtain ⟨more, rfl⟩ := hcs
  rw [List.takeWhile_append_of_pos h, List.length_append]
  omega

theorem nonempty_takeWhile {f : Char → Bool} (hne : lexeme ≠ []) (h : ∀ c ∈ lexeme, f c = true)
    (hcs : lexeme <+: cs) : nonempty (cs.takeWhile f) = some (cs.takeWhile f) := by
  refine nonempty_eq_some_iff.mpr ⟨rfl, fun hnil => hne ?_⟩
  have hlength := length_le_takeWhile h hcs
  rw [hnil] at hlength
  exact List.length_eq_zero_iff.mp (Nat.le_zero.mp hlength)

/-- What is found of a pattern is not shorter than any of its texts. -/
theorem exists_match?_of_matches (h : p.Matches lexeme) (hcs : lexeme <+: cs) :
    ∃ found, p.match? cs = some found ∧ lexeme.length ≤ found.length := by
  cases h with
  | word hc hothers =>
      obtain ⟨more, rfl⟩ := hcs
      refine ⟨_, if_pos hc, ?_⟩
      simpa using length_le_takeWhile hothers (List.prefix_append _ more)
  | hexadecimal hx hne hdigits =>
      obtain ⟨more, rfl⟩ := hcs
      have hfound := nonempty_takeWhile hne hdigits (List.prefix_append _ more)
      refine ⟨_, (if_pos hx).trans (congrArg _ hfound), ?_⟩
      simpa using length_le_takeWhile hdigits (List.prefix_append _ more)
  | decimal hne hdigits =>
      exact ⟨_, nonempty_takeWhile hne hdigits hcs, length_le_takeWhile hdigits hcs⟩
  | newline =>
      obtain ⟨more, rfl⟩ := hcs
      exact ⟨_, rfl, Nat.le_refl _⟩
  | @character c hquote hbackslash =>
      obtain ⟨more, rfl⟩ := hcs
      refine ⟨['\'', c, '\''], ?_, Nat.le_refl _⟩
      have hfound : match? quotedCharacter ('\'' :: c :: '\'' :: more) =
          if c = '\'' ∨ c = '\\' then none else some ['\'', c, '\''] := by
        simp [match?, hbackslash]
      exact hfound.trans (if_neg (not_or.mpr ⟨hquote, hbackslash⟩))
  | blanks hne hblank =>
      exact ⟨_, nonempty_takeWhile hne hblank hcs, length_le_takeWhile hblank hcs⟩
  | comment hline =>
      obtain ⟨more, rfl⟩ := hcs
      have hclass : ∀ c ∈ _, (fun c => decide (c ≠ '\n')) c = true :=
        fun c hc => decide_eq_true (hline c hc)
      refine ⟨_, rfl, ?_⟩
      simpa using length_le_takeWhile hclass (List.prefix_append _ more)
  | mark _ => exact ⟨_, if_pos (List.isPrefixOf_iff_prefix.mpr hcs), Nat.le_refl _⟩

/-! ### Two patterns

Most patterns have no first character in common. The first characters of a
pattern are ranges, so this is a comparison of ranges. -/

/-- The characters that the texts of a pattern begin with, as ranges with both
ends included. -/
def starts : Pattern → List (Nat × Nat)
  | word => [(0x41, 0x5a), (0x5f, 0x5f), (0x61, 0x7a)]
  | hexadecimal => [(0x30, 0x30)]
  | decimal => [(0x30, 0x39)]
  | quotedCharacter => [(0x27, 0x27)]
  | blanks => Text.blankRanges
  | comment => [(0x2f, 0x2f)]
  | mark form _ => (form.take 1).map fun c => (c.toNat, c.toNat)

/-- No text of the one pattern begins like a text of the other. -/
def apart (p q : Pattern) : Bool :=
  p.starts.all fun r => q.starts.all fun s => r.2 < s.1 || s.2 < r.1

theorem Matches.exists_start (h : p.Matches lexeme) :
    ∃ c, lexeme.head? = some c ∧ ∃ r ∈ p.starts, r.1 ≤ c.toNat ∧ c.toNat ≤ r.2 := by
  have hrange : ∀ {c d e : Char}, c ≤ d ∧ d ≤ e → c.toNat ≤ d.toNat ∧ d.toNat ≤ e.toNat :=
    fun h => h
  cases h with
  | @word c cs hstart _ =>
      refine ⟨c, rfl, ?_⟩
      change (decide ('A' ≤ c ∧ c ≤ 'Z') || (decide ('a' ≤ c) && decide (c ≤ 'z')) || c == '_') =
        true at hstart
      simp only [Bool.or_eq_true, Bool.and_eq_true, decide_eq_true_eq, beq_iff_eq] at hstart
      rcases hstart with (hc | hc) | rfl
      · exact ⟨(0x41, 0x5a), by decide, hrange hc⟩
      · exact ⟨(0x61, 0x7a), by decide, hrange hc⟩
      · exact ⟨(0x5f, 0x5f), by decide, by decide⟩
  | hexadecimal => exact ⟨'0', rfl, (0x30, 0x30), by decide, by decide⟩
  | @decimal digits hne hdigits =>
      obtain ⟨c, cs, rfl⟩ := List.exists_cons_of_ne_nil hne
      have hc := hdigits c List.mem_cons_self
      simp only [Char.isDigit, Bool.and_eq_true, decide_eq_true_eq] at hc
      exact ⟨c, rfl, (0x30, 0x39), by decide, hrange hc⟩
  | newline | character => exact ⟨'\'', rfl, (0x27, 0x27), by decide, by decide⟩
  | @blanks cs hne hblank =>
      obtain ⟨c, cs, rfl⟩ := List.exists_cons_of_ne_nil hne
      obtain ⟨r, hr, hc⟩ := List.any_eq_true.mp (hblank c List.mem_cons_self)
      simp only [Bool.and_eq_true, decide_eq_true_eq] at hc
      exact ⟨c, rfl, r, hr, hc⟩
  | comment => exact ⟨'/', rfl, (0x2f, 0x2f), by decide, by decide⟩
  | mark known =>
      obtain ⟨c, cs, rfl⟩ := List.exists_cons_of_ne_nil (mark_of_mem known).1
      exact ⟨c, rfl, (c.toNat, c.toNat), List.mem_singleton_self _, Nat.le_refl _, Nat.le_refl _⟩

theorem not_prefix_of_apart (h : p.apart q = true) (hp : p.Matches lexeme) (hq : q.Matches other)
    (hlexeme : lexeme <+: cs) (hother : other <+: cs) : False := by
  obtain ⟨c, hc, r, hr, hcr⟩ := hp.exists_start
  obtain ⟨d, hd, s, hs, hds⟩ := hq.exists_start
  obtain ⟨lexeme, rfl⟩ := List.head?_eq_some_iff.mp hc
  obtain ⟨other, rfl⟩ := List.head?_eq_some_iff.mp hd
  obtain ⟨_, rfl, -⟩ := List.cons_prefix_iff.mp hlexeme
  obtain rfl := (List.cons_prefix_cons.mp hother).1
  have hranges := List.all_eq_true.mp (List.all_eq_true.mp h r hr) s hs
  simp only [Bool.or_eq_true, decide_eq_true_eq] at hranges
  omega

/-- Where both patterns are found, the first has the longer text. -/
def Outruns (p q : Pattern) : Prop :=
  ∀ cs lexeme other, p.match? cs = some lexeme → q.match? cs = some other →
    other.length < lexeme.length

/-- The pairs of patterns that can begin alike. -/
def overlaps : List (Pattern × Pattern) :=
  [(hexadecimal, decimal), (comment, mark ['/'] .slash),
    (mark [':', '='] .assignment, mark [':'] .colon),
    (mark ['<', '='] .lessEquals, mark ['<'] .less),
    (mark ['>', '='] .greaterEquals, mark ['>'] .greater)]

theorem hexadecimal_outruns_decimal : hexadecimal.Outruns decimal := by
  intro cs lexeme other hhex hdecimal
  have hmatches := matches_of_match? (by decide) hhex
  obtain ⟨more, rfl⟩ := prefix_of_match? hhex
  obtain ⟨rfl, -⟩ := nonempty_eq_some_iff.mp hdecimal
  cases hmatches with
  | hexadecimal hx _ _ =>
      -- The letter behind the zero is no digit.
      have hletter : Char.isDigit 'x' = false ∧ Char.isDigit 'X' = false := by decide
      rcases hx with rfl | rfl <;> simp [List.takeWhile, hletter]

theorem comment_outruns_slash : comment.Outruns (mark ['/'] .slash) := by
  intro cs lexeme other hcomment hslash
  obtain ⟨-, hslash⟩ := Option.ite_none_right_eq_some.mp hslash
  obtain rfl := Option.some.inj hslash
  obtain ⟨hline⟩ := matches_of_match? (by decide) hcomment
  simp

theorem mark_outruns_mark {form shorter : List Char} (kind kind' : TokenKind)
    (h : shorter.length < form.length) : (mark form kind).Outruns (mark shorter kind') := by
  intro cs lexeme other hform hshorter
  obtain ⟨-, hform⟩ := Option.ite_none_right_eq_some.mp hform
  obtain ⟨-, hshorter⟩ := Option.ite_none_right_eq_some.mp hshorter
  rwa [← Option.some.inj hform, ← Option.some.inj hshorter]

theorem outruns_of_mem_overlaps (h : (p, q) ∈ overlaps) : p.Outruns q := by
  simp only [overlaps, List.mem_cons, Prod.mk.injEq, List.not_mem_nil, or_false] at h
  rcases h with ⟨rfl, rfl⟩ | ⟨rfl, rfl⟩ | ⟨rfl, rfl⟩ | ⟨rfl, rfl⟩ | ⟨rfl, rfl⟩
  · exact hexadecimal_outruns_decimal
  · exact comment_outruns_slash
  · exact mark_outruns_mark _ _ (by decide)
  · exact mark_outruns_mark _ _ (by decide)
  · exact mark_outruns_mark _ _ (by decide)

/-- A pattern stands before all those that it outruns. -/
theorem pairwise_outruns : table.Pairwise Outruns := by
  have hpairs : table.Pairwise fun p q =>
      p ∈ table ∧ q ∈ table ∧ (p.apart q = true ∨ (p, q) ∈ overlaps) := by decide +kernel
  refine hpairs.imp fun {p q} hpq => ?_
  obtain ⟨hp, hq, hpq | hpq⟩ := hpq
  · intro cs lexeme other hlexeme hother
    exact (not_prefix_of_apart hpq (matches_of_match? hp hlexeme) (matches_of_match? hq hother)
      (prefix_of_match? hlexeme) (prefix_of_match? hother)).elim
  · exact outruns_of_mem_overlaps hpq

/-! ### All patterns -/

/-- The first pattern that is found has a longer text than all others. -/
theorem length_lt_of_first? (h : first? cs = some (p, lexeme)) (hq : q ∈ table) (hne : q ≠ p)
    (hother : q.match? cs = some other) : other.length < lexeme.length := by
  obtain ⟨before, p', after, htable, hfound, hbefore⟩ := List.findSome?_eq_some_iff.mp h
  obtain ⟨_, hlexeme, ⟨⟩⟩ := Option.map_eq_some_iff.mp hfound
  have hpairs := pairwise_outruns
  rw [htable] at hq hpairs
  rcases List.mem_append.mp hq with hq | hq
  · have hnone := hbefore q hq
    rw [hother] at hnone
    cases hnone
  · rcases List.mem_cons.mp hq with rfl | hq
    · exact absurd rfl hne
    · have hafter := (List.pairwise_append.mp hpairs).2.1
      exact (List.pairwise_cons.mp hafter).1 q hq _ _ _ hlexeme hother

theorem munches_of_first? (h : first? cs = some (p, lexeme)) : p.Munches lexeme cs := by
  obtain ⟨p', hp, hentry⟩ := List.exists_of_findSome?_eq_some h
  obtain ⟨_, hlexeme, ⟨⟩⟩ := Option.map_eq_some_iff.mp hentry
  refine ⟨matches_of_match? hp hlexeme, prefix_of_match? hlexeme, fun q other hq hother => ?_⟩
  obtain ⟨found, hfound, hle⟩ := exists_match?_of_matches hq hother
  by_cases hqp : q = p
  · subst hqp
    obtain rfl := Option.some.inj (hlexeme.symm.trans hfound)
    exact hle
  · exact Nat.le_trans hle (Nat.le_of_lt (length_lt_of_first? h hq.mem_table hqp hfound))

/-- The lexer takes the pattern with the longest text. -/
theorem first?_eq_some_iff : first? cs = some (p, lexeme) ↔ p.Munches lexeme cs := by
  refine ⟨munches_of_first?, fun h => ?_⟩
  obtain ⟨found, hfound, hle⟩ := exists_match?_of_matches h.matched h.starts
  cases hfirst : first? cs with
  | none =>
      have hnone := List.findSome?_eq_none_iff.mp hfirst p h.matched.mem_table
      rw [hfound] at hnone
      cases hnone
  | some entry =>
      obtain ⟨q, other⟩ := entry
      have hq := munches_of_first? hfirst
      have hlength := h.longest q other hq.matched hq.starts
      obtain rfl : other = lexeme :=
        (List.prefix_of_prefix_length_le hq.starts h.starts hlength).eq_of_length
          (Nat.le_antisymm hlength (hq.longest p lexeme h.matched h.starts))
      by_cases hpq : p = q
      · rw [hpq]
      · have hlt := length_lt_of_first? hfirst h.matched.mem_table hpq hfound
        omega

/-- The lexer finds nothing only where no text of a pattern begins. -/
theorem first?_eq_none_iff : first? cs = none ↔ ∀ p lexeme, Matches p lexeme → ¬ lexeme <+: cs := by
  constructor
  · intro h p lexeme hp hcs
    obtain ⟨found, hfound, -⟩ := exists_match?_of_matches hp hcs
    have hnone := List.findSome?_eq_none_iff.mp h p hp.mem_table
    rw [hfound] at hnone
    cases hnone
  · intro h
    cases hfirst : first? cs with
    | none => rfl
    | some entry =>
        have hmunches := munches_of_first? hfirst
        exact absurd hmunches.starts (h _ _ hmunches.matched)

theorem Munches.unique (hp : p.Munches lexeme cs) (hq : q.Munches lexeme cs) : p = q := by
  have hfirst := (first?_eq_some_iff.mpr hp).symm.trans (first?_eq_some_iff.mpr hq)
  exact congrArg Prod.fst (Option.some.inj hfirst)

end Pattern

end Spl
