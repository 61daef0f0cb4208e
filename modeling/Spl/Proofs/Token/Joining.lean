import Mathlib.Data.List.Forall2
import Spl.Proofs.Token.Gaps
import Spl.Proofs.Token.Tiling

/-!
Texts that are joined by a line break. No token and no comment goes on behind
the break, and white space around it stands for no token. So what the lexer
finds in the joined text is what it finds in the first text, followed by what it
finds in the second, which stands further behind by the first and the break.
-/

namespace Spl

/-! ### Places further behind -/

/-- The place `n` bytes further behind in the same file, with an offset that
has not wrapped. -/
structure Position.Moved (n : Nat) (p q : Position) : Prop where
  file : q.file = p.file
  offset : q.offset.toNat = p.offset.toNat + n

/-- The same token, `n` bytes further behind. -/
structure Token.Moved (n : Nat) (t u : Token) : Prop where
  kind : u.kind = t.kind
  value : u.value = t.value
  start : t.span.start.Moved n u.span.start
  stop : t.span.stop.Moved n u.span.stop

section Moving

variable {file : String} {lead read text cs rest : List Char} {ts : List Token}

theorem Position.moved_behind (file : String) {lead read : List Char}
    (hshort : Text.byteLength (lead ++ read) < 2 ^ 32) :
    Moved (Text.byteLength lead) ⟨UInt32.ofNat (Text.byteLength read), file⟩
      ⟨UInt32.ofNat (Text.byteLength (lead ++ read)), file⟩ := by
  rw [Text.byteLength_append] at hshort
  refine ⟨rfl, ?_⟩
  rw [UInt32.toNat_ofNat_of_lt' (by rw [Text.byteLength_append]; exact hshort),
    UInt32.toNat_ofNat_of_lt' (Nat.lt_of_le_of_lt (Nat.le_add_left _ _) hshort),
    Text.byteLength_append, Nat.add_comm]

theorem Token.moved_behind (kind : TokenKind) (value file : String)
    (hshort : Text.byteLength (lead ++ (read ++ text)) < 2 ^ 32) :
    Moved (Text.byteLength lead) ⟨kind, value, .behind file read text⟩
      ⟨kind, value, .behind file (lead ++ read) text⟩ := by
  have hstop := Position.moved_behind file hshort
  rw [← List.append_assoc] at hstop hshort
  refine ⟨rfl, rfl, Position.moved_behind file ?_, hstop⟩
  refine Nat.lt_of_le_of_lt ?_ hshort
  rw [Text.byteLength_append _ text]
  exact Nat.le_add_right _ _

/-- The tiles of a text do not depend on what has been read. -/
theorem Tiling.exists_moved (h : Tiling file read cs ts rest) (lead : List Char)
    (hshort : Text.byteLength (lead ++ (read ++ cs)) < 2 ^ 32) :
    ∃ us, Tiling file (lead ++ read) cs us rest ∧
      List.Forall₂ (Token.Moved (Text.byteLength lead)) ts us := by
  induction h with
  | done => exact ⟨[], .done, .nil⟩
  | @token read lexeme cs rest p t ts hlexeme hkind hwritten hspan _ ih =>
      obtain ⟨us, htail, hmoved⟩ := ih (by rwa [List.append_assoc read])
      rw [← List.append_assoc lead] at htail
      obtain ⟨kind, value, span⟩ := t
      obtain rfl : span = .behind file read lexeme := hspan
      refine ⟨⟨kind, value, .behind file (lead ++ read) lexeme⟩ :: us,
        .token hlexeme hkind hwritten rfl htail,
        .cons (Token.moved_behind kind value file ?_) hmoved⟩
      simp only [Text.byteLength_append] at hshort ⊢
      omega
  | @layout read lexeme cs rest p ts hlexeme hkind _ ih =>
      obtain ⟨us, htail, hmoved⟩ := ih (by rwa [List.append_assoc read])
      rw [← List.append_assoc lead] at htail
      exact ⟨us, .layout hlexeme hkind htail, hmoved⟩

end Moving

/-! ### Tiles at a line break -/

section Breaks

variable {p : Pattern} {file : String} {read gap lexeme cs ds rest last : List Char}
  {ts us : List Token}

/-- The tile in front of a line break does not grow over it, wherever in the
line it is, unless it is white space. -/
theorem Pattern.Munches.append_break (h : p.Munches lexeme (lexeme ++ cs)) (hp : p ≠ .blanks)
    (ds : List Char) : p.Munches lexeme (lexeme ++ (cs ++ '\n' :: ds)) := by
  refine h.matched.munches_append fun q c more hmore hq => ?_
  -- What goes on behind the tile does so beyond the line, so it has the break in it.
  obtain ⟨beyond, hbeyond⟩ : ∃ beyond, c :: more = cs ++ '\n' :: beyond := by
    have hline : ¬ c :: more <+: cs := fun hline => h.not_matches (List.cons_ne_nil c more) hline hq
    obtain ⟨beyond, hbeyond⟩ :=
      (List.prefix_or_prefix_of_prefix hmore (List.prefix_append cs _)).resolve_left hline
    rw [← hbeyond] at hmore hline ⊢
    cases beyond with
    | nil => simp at hline
    | cons d beyond =>
        obtain ⟨rfl, -⟩ := List.cons_prefix_cons.mp ((List.prefix_append_right_inj cs).mp hmore)
        exact ⟨beyond, rfl⟩
  rw [hbeyond] at hq
  have hmem : '\n' ∈ (lexeme ++ (cs ++ '\n' :: beyond)).tail := by
    rw [List.tail_append_of_ne_nil h.matched.ne_nil]
    simp
  rcases hq.eq_of_gapStart hmem (.inl (by decide)) with rfl | rfl | rfl
  · cases hq with
    | blanks _ hblank =>
        have hblanks : Matches .blanks lexeme :=
          .blanks h.matched.ne_nil fun d hd => hblank d (List.mem_append_left _ hd)
        exact hp (h.matched.munches.unique hblanks.munches)
  · exact hq.not_mem_break (List.mem_of_mem_tail hmem)
  · exact h.matched.not_quotedCharacter_append (List.append_ne_nil_of_right_ne_nil cs (by simp)) hq

/-- Tiles that cover a line stay where they are when more lines follow. White
space at its end becomes a part of the tile with the break. -/
theorem Tiling.append_break (h : Tiling file read cs ts last) (hlast : last = [])
    (h' : Tiling file (read ++ cs) ('\n' :: ds) us rest) (hrest : Pattern.first? rest = none) :
    Tiling file read (cs ++ '\n' :: ds) (ts ++ us) rest := by
  induction h with
  | done =>
      subst hlast
      rwa [List.append_nil] at h'
  | @token read lexeme cs _ p t ts hlexeme hkind hwritten hspan _ ih =>
      rw [List.append_assoc]
      refine .token (hlexeme.append_break ?_ ds) hkind hwritten hspan
        (ih hlast (by rwa [List.append_assoc]))
      rintro rfl
      cases hkind
  | @layout read lexeme cs _ p ts hlexeme hkind _ ih =>
      have htail := ih hlast (by rwa [List.append_assoc])
      rw [List.append_assoc]
      by_cases hp : p = .blanks
      · subst hp
        cases hlexeme.matched with
        | blanks hne hblank => exact htail.blanks_append hne hblank hrest
      · exact .layout (hlexeme.append_break hp ds) hkind htail

end Breaks

/-! ### Sources -/

/-- The tiles of two texts are those of the joined text. -/
theorem Tiling.join {file : String} {cs ds rest : List Char} {ts us : List Token}
    (h : Tiling file [] cs ts []) (h' : Tiling file [] ds us rest)
    (hrest : Pattern.first? rest = none)
    (hshort : Text.byteLength (cs ++ ['\n'] ++ ds) < 2 ^ 32) :
    ∃ vs, Tiling file [] (cs ++ ['\n'] ++ ds) (ts ++ vs) rest ∧
      List.Forall₂ (Token.Moved (Text.byteLength (cs ++ ['\n']))) us vs := by
  obtain ⟨vs, htiles, hmoved⟩ := h'.exists_moved (cs ++ ['\n']) hshort
  rw [List.append_nil] at htiles
  have hbreak : Tiling file cs ('\n' :: ds) vs rest :=
    htiles.blank_cons (by decide) hrest
  refine ⟨vs, ?_, hmoved⟩
  rw [List.append_assoc]
  exact h.append_break rfl hbreak hrest

/-- A text that the lexer can cut, a line break and another text are cut if and
only if the other text is. Then the tokens are those of the one text, the mark
of its end apart, and behind them those of the other, moved by the one and the
break. Else the complaint is about the same character, moved in the same way. -/
theorem tokenize_append_break {a b : String} {file : Option String} {ts : List Token} {eof : Token}
    (ha : tokenize a file = .ok (ts ++ [eof])) (hshort : (a ++ "\n" ++ b).utf8ByteSize < 2 ^ 32) :
    (tokenize (a ++ "\n" ++ b) file).isOk = (tokenize b file).isOk ∧
    (∀ us, tokenize b file = .ok us → ∃ vs, tokenize (a ++ "\n" ++ b) file = .ok (ts ++ vs) ∧
      List.Forall₂ (Token.Moved (a.utf8ByteSize + 1)) us vs) ∧
    ∀ halt, tokenize b file = .error halt → ∃ (c : Char) (p q : Position),
      halt = .diagnostic ⟨.unrecognisedToken c.toString, p⟩ ∧
      tokenize (a ++ "\n" ++ b) file = .error (.diagnostic ⟨.unrecognisedToken c.toString, q⟩) ∧
      p.Moved (a.utf8ByteSize + 1) q := by
  obtain ⟨ts', hts, htiles⟩ := tiling_of_tokenize ha
  obtain ⟨rfl, -⟩ := List.append_inj' hts rfl
  have hlead : Text.byteLength (a.toList ++ ['\n']) = a.utf8ByteSize + 1 := by
    rw [Text.byteLength_append, Text.byteLength_toList]
    rfl
  have hsource : (a ++ "\n" ++ b).toList = a.toList ++ ['\n'] ++ b.toList := by simp
  have hlimit : (a ++ "\n" ++ b).utf8ByteSize < Count.limit := Nat.lt_trans hshort (by decide)
  have hbytes : Text.byteLength (a.toList ++ ['\n'] ++ b.toList) < 2 ^ 32 := by
    rwa [← hsource, Text.byteLength_toList]
  have hlimit' : b.utf8ByteSize < Count.limit := by
    rw [String.utf8ByteSize_append] at hlimit
    exact Nat.lt_of_le_of_lt (Nat.le_add_left _ _) hlimit
  rw [← hlead]
  obtain ⟨us, hb, htiles'⟩ | ⟨us, read, c, rest, hread, hb, htiles', hrest⟩ :=
    tokenize_covered_or_stuck hlimit' file
  · obtain ⟨vs, hjoined, hmoved⟩ := htiles.join htiles' rfl hbytes
    rw [← hsource] at hjoined
    have hab := tokenize_of_covered hlimit hjoined
    rw [hab, hb]
    refine ⟨rfl, ?_, nofun⟩
    rintro _ ⟨⟩
    rw [List.append_assoc, hsource]
    refine ⟨_, rfl, List.rel_append hmoved (.cons ?_ .nil)⟩
    exact Token.moved_behind .eof "EOF" _ (by rwa [List.append_nil])
  · obtain ⟨vs, hjoined, -⟩ := htiles.join htiles' hrest hbytes
    rw [← hsource] at hjoined
    have hab := tokenize_of_stuck hlimit (by rw [hsource, hread, ← List.append_assoc]) hjoined hrest
    rw [hab, hb]
    refine ⟨rfl, nofun, ?_⟩
    rintro _ ⟨⟩
    refine ⟨c, _, _, rfl, rfl, Position.moved_behind _ ?_⟩
    rw [hread, ← List.append_assoc, Text.byteLength_append] at hbytes
    exact Nat.lt_of_le_of_lt (Nat.le_add_right _ _) hbytes

/-- A line break between quotes and a comment with a quote in the one text,
white space on both sides of the break, and two characters of two bytes. -/
theorem tokens_of_joined_lines :
    let a := "'\n' // ü'"
    let b := "\t#'ß'"
    (a ++ "\n" ++ b).utf8ByteSize < 2 ^ 32 ∧ ∃ ts eof us vs,
      tokenize a none = .ok (ts ++ [eof]) ∧ tokenize b none = .ok us ∧
        tokenize (a ++ "\n" ++ b) none = .ok (ts ++ vs) ∧
        List.Forall₂ (Token.Moved (a.utf8ByteSize + 1)) us vs ∧
        us.map (fun t => (t.value, t.span.start.offset)) = [("#", 1), ("ß", 2), ("EOF", 6)] ∧
        vs.map (fun t => (t.value, t.span.start.offset)) = [("#", 12), ("ß", 13), ("EOF", 17)] := by
  intro a b
  have hshort : (a ++ "\n" ++ b).utf8ByteSize < 2 ^ 32 := by decide +kernel
  let t (kind : TokenKind) (value : String) (start stop : UInt32) : Token :=
    ⟨kind, value, ⟨start, "shell"⟩, ⟨stop, "shell"⟩⟩
  have ha : tokenize a none =
      .ok ([t .character "\n" 0 3] ++ [t .eof "EOF" 10 10]) := by
    decide +kernel
  have hb : tokenize b none =
      .ok [t .notEquals "#" 1 2, t .character "ß" 2 6, t .eof "EOF" 6 6] := by
    decide +kernel
  obtain ⟨-, htokens, -⟩ := tokenize_append_break ha hshort
  obtain ⟨vs, hab, hmoved⟩ := htokens _ hb
  refine ⟨hshort, _, _, _, vs, ha, hb, hab, hmoved, rfl, ?_⟩
  have hall : (tokenize (a ++ "\n" ++ b) none).toOption.map
      (·.map fun t => (t.value, t.span.start.offset)) =
        some [("\n", 0), ("#", 12), ("ß", 13), ("EOF", 17)] := by
    decide +kernel
  rw [hab] at hall
  exact (List.cons.inj (Option.some.inj hall)).2

end Spl
