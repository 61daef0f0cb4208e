import Spl.Proofs.Token.Lexing
import Spl.Proofs.Yielding

/-!
How the tokens of a source lie in it. Their spans hold the texts that they are
written with, follow one another, and have only white space and comments
between them. No token stops inside of a longer text of a pattern.
-/

namespace Spl

/-! ### Longest texts -/

/-- The text that a token stands at is not the beginning of a longer one. -/
structure Token.Whole (t : Token) (after : List Char) : Prop where
  munches : ∃ p : Pattern, p.Munches t.written (t.written ++ after) ∧
    p.kind? t.written = some t.kind
  word : Pattern.word.Matches t.written → ∀ c, after.head? = some c → isWordChar c = false
  mark : t.written = [':'] ∨ t.written = ['<'] ∨ t.written = ['>'] → after.head? ≠ some '='
  slash : t.written = ['/'] → after.head? ≠ some '/'
  zero : t.written = ['0'] → ∀ x d, x = 'x' ∨ x = 'X' → isHexDigit d = true → ¬ [x, d] <+: after

namespace Pattern

variable {p : Pattern} {lexeme after : List Char}

theorem Munches.whole {t : Token} (h : p.Munches t.written (t.written ++ after))
    (hkind : p.kind? t.written = some t.kind) : t.Whole after where
  munches := ⟨p, h, hkind⟩
  word hword c hc := by
    rw [← Bool.not_eq_true]
    intro hchar
    refine h.not_matches_head (q := .word) hc ?_
    generalize t.written = lexeme at hword
    cases hword with
    | word hstart hothers =>
        refine .word hstart fun d hd => ?_
        rcases List.mem_append.mp hd with hd | hd
        · exact hothers d hd
        · rwa [List.mem_singleton.mp hd]
  mark hmark hc := by
    rcases hmark with hmark | hmark | hmark
    · exact h.not_matches_head (q := .mark [':', '='] .assignment) hc
        (by rw [hmark]; exact .mark (by decide))
    · exact h.not_matches_head (q := .mark ['<', '='] .lessEquals) hc
        (by rw [hmark]; exact .mark (by decide))
    · exact h.not_matches_head (q := .mark ['>', '='] .greaterEquals) hc
        (by rw [hmark]; exact .mark (by decide))
  slash hslash hc := by
    refine h.not_matches_head (q := .comment) hc ?_
    rw [hslash]
    exact .comment (by simp)
  zero hzero x d hx hd hstart := by
    refine h.not_matches (q := .hexadecimal) (List.cons_ne_nil x [d]) hstart ?_
    rw [hzero]
    exact .hexadecimal hx (List.cons_ne_nil d []) (by simpa using hd)

/-- The reserved words, and no other texts, have kinds of their own. -/
theorem kind_eq_iff_of_mem {kind : TokenKind} (h : p.Munches lexeme (lexeme ++ after))
    (hkind : p.kind? lexeme = some kind) {entry : String × TokenKind}
    (hentry : entry ∈ reservedWords) :
    kind = entry.2 ↔ lexeme = entry.1.toList := by
  have hunique : ∀ e ∈ reservedWords, ∀ e' ∈ reservedWords, e.2 = e'.2 → e = e' := by decide
  have hword : ∀ e ∈ reservedWords, reservedWords.lookup e.1 = some e.2 ∧ e.2 ≠ .identifier ∧
      e.1.toList.head?.any isWordStart = true ∧ e.1.toList.tail.all isWordChar = true := by
    decide
  have hkinds : ∀ q ∈ table, ∀ e ∈ reservedWords, q ≠ word → kind? q [] ≠ some e.2 := by
    decide
  constructor
  · rintro rfl
    cases p with
    | word =>
        have hlookup := Option.some.inj hkind
        cases hfound : reservedWords.lookup (String.ofList lexeme) with
        | none =>
            rw [hfound] at hlookup
            exact absurd hlookup.symm (hword entry hentry).2.1
        | some kind =>
            rw [hfound] at hlookup
            obtain ⟨before, others, hwords, -⟩ := List.lookup_eq_some_iff.mp hfound
            have hmem : (String.ofList lexeme, kind) ∈ reservedWords := by rw [hwords]; simp
            have hsame := hunique _ hmem entry hentry hlookup
            rw [← hsame, String.toList_ofList]
    | hexadecimal | decimal | quotedCharacter | blanks | comment | mark =>
        exact absurd hkind (hkinds _ h.matched.mem_table entry hentry nofun)
  · rintro rfl
    obtain ⟨hlookup, -, hstart, hothers⟩ := hword entry hentry
    have hmatches : word.Matches entry.1.toList := by
      generalize entry.1.toList = form at hstart hothers
      cases form with
      | nil => cases hstart
      | cons c cs => exact .word hstart (List.all_eq_true.mp hothers)
    obtain rfl := h.unique ⟨hmatches, h.starts, h.longest⟩
    have hkind := Option.some.inj hkind
    rwa [String.ofList_toList, hlookup, eq_comm] at hkind

end Pattern

/-! ### White space and comments -/

/-- Runs of white space and comments, in front of `next`. A comment goes on up
to the end of its line. -/
inductive Layout : List Char → List Char → Prop
  | nil {next : List Char} : Layout [] next
  | blanks {run cs next : List Char} (nonempty : run ≠ [])
      (hblank : ∀ c ∈ run, Text.isBlank c = true) (others : Layout cs next) :
      Layout (run ++ cs) next
  | comment {line cs next : List Char} (hline : ∀ c ∈ line, c ≠ '\n')
      (stop : ∀ c, (cs ++ next).head? = some c → c = '\n') (others : Layout cs next) :
      Layout ('/' :: '/' :: (line ++ cs)) next

theorem Layout.append {cs ds next : List Char} (h : Layout cs (ds ++ next)) (hds : Layout ds next) :
    Layout (cs ++ ds) next := by
  generalize hmore : ds ++ next = more at h
  induction h with
  | nil => exact hds
  | blanks hne hblank _ ih =>
      rw [List.append_assoc]
      exact .blanks hne hblank (ih hmore)
  | comment hline hstop _ ih =>
      subst hmore
      rw [List.cons_append, List.cons_append, List.append_assoc]
      exact .comment hline (by rwa [List.append_assoc]) (ih rfl)

theorem Layout.of_munches {p : Pattern} {lexeme next : List Char}
    (h : p.Munches lexeme (lexeme ++ next)) (hkind : p.kind? lexeme = none) :
    Layout lexeme next := by
  have hstop : ∀ c, next.head? = some c → ¬ Pattern.comment.Matches (lexeme ++ [c]) :=
    fun c hc => h.not_matches_head hc
  cases h.matched with
  | blanks hne hblank =>
      rw [← List.append_nil lexeme]
      exact .blanks hne hblank .nil
  | @comment line hline =>
      rw [← List.append_nil line]
      refine .comment hline (fun c hc => ?_) .nil
      by_contra hnewline
      refine hstop c hc (.comment fun d hd => ?_)
      rcases List.mem_append.mp hd with hd | hd
      · exact hline d hd
      · rwa [List.mem_singleton.mp hd]
  | word | hexadecimal | decimal | newline | character | mark => cases hkind

/-! ### Places -/

/-- The span is that of the text behind `before`, counted in bytes. -/
structure Span.Marks (s : Span) (file : String) (before text : List Char) : Prop where
  start_file : s.start.file = file
  stop_file : s.stop.file = file
  start_offset : s.start.offset.toNat = Text.byteLength before
  stop_offset : s.stop.offset.toNat = Text.byteLength (before ++ text)

theorem Span.marks_behind (file : String) {before text : List Char}
    (h : Text.byteLength (before ++ text) < 2 ^ 32) :
    (Span.behind file before text).Marks file before text := by
  have hbefore : Text.byteLength before < 2 ^ 32 := by
    rw [Text.byteLength_append] at h
    omega
  exact ⟨rfl, rfl, UInt32.toNat_ofNat_of_lt' hbefore, UInt32.toNat_ofNat_of_lt' h⟩

/-- The offset behind the last of some tokens, or `first` if there are none. -/
def stopOr (first : Nat) (ts : List Token) : Nat :=
  ts.getLast?.elim first fun t => t.span.stop.offset.toNat

theorem stopOr_cons (first : Nat) (t : Token) (ts : List Token) :
    stopOr first (t :: ts) = stopOr t.span.stop.offset.toNat ts := by
  rw [stopOr, stopOr, List.getLast?_cons]
  cases ts.getLast? <;> rfl

/-- How the tokens of a source lie in it, the mark of the end apart. -/
structure Laid (file : String) (source : List Char) (ts : List Token) : Prop where
  placed : ∀ t ∈ ts, t.kind ≠ .eof ∧ t.written ≠ [] ∧ ∃ before after,
    source = before ++ (t.written ++ after) ∧ t.span.Marks file before t.written ∧ t.Whole after
  ordered : ts.Pairwise fun t u => t.span.stop.offset ≤ u.span.start.offset
  gaps : ∀ us t vs, ts ++ [.endOf file source] = us ++ t :: vs → ∃ before gap after,
    source = before ++ (gap ++ after) ∧ Text.byteLength before = stopOr 0 us ∧
      Text.byteLength (before ++ gap) = t.span.start.offset.toNat ∧ Layout gap after
  keywords : ∀ t ∈ ts, ∀ entry ∈ reservedWords,
    t.kind = entry.2 ↔ t.written = entry.1.toList
  last : (Token.endOf file source).span.Marks file source []

namespace Tiling

variable {file : String} {read cs rest : List Char} {ts : List Token}

theorem placed (h : Tiling file read cs ts rest) (hshort : Text.byteLength (read ++ cs) < 2 ^ 32) :
    ∀ t ∈ ts, t.written ≠ [] ∧ ∃ before after, read ++ cs = before ++ (t.written ++ after) ∧
      t.span.Marks file before t.written ∧ Text.byteLength read ≤ Text.byteLength before ∧
      ∃ p : Pattern,
        p.Munches t.written (t.written ++ after) ∧ p.kind? t.written = some t.kind := by
  induction h with
  | done => simp
  | @token read lexeme cs rest p t ts hlexeme hkind hwritten hspan _ ih =>
      subst hwritten
      rw [← List.append_assoc] at hshort
      refine List.forall_mem_cons.mpr ⟨⟨hlexeme.matched.ne_nil, read, cs, rfl, ?_, Nat.le_refl _, p,
        hlexeme, hkind⟩, fun u hu => ?_⟩
      · rw [hspan]
        refine Span.marks_behind file ?_
        rw [Text.byteLength_append] at hshort
        omega
      · obtain ⟨hne, before, after, hsource, hmarks, hle, hp⟩ := ih hshort u hu
        rw [List.append_assoc] at hsource
        rw [Text.byteLength_append] at hle
        exact ⟨hne, before, after, hsource, hmarks, by omega, hp⟩
  | @layout read lexeme cs rest p ts hlexeme _ _ ih =>
      rw [← List.append_assoc] at hshort
      intro u hu
      obtain ⟨hne, before, after, hsource, hmarks, hle, hp⟩ := ih hshort u hu
      rw [List.append_assoc] at hsource
      rw [Text.byteLength_append] at hle
      exact ⟨hne, before, after, hsource, hmarks, by omega, hp⟩

theorem ordered (h : Tiling file read cs ts rest) (hshort : Text.byteLength (read ++ cs) < 2 ^ 32) :
    ts.Pairwise fun t u => t.span.stop.offset ≤ u.span.start.offset := by
  induction h with
  | done => exact .nil
  | @token read lexeme cs rest p t ts _ _ _ hspan htail ih =>
      rw [← List.append_assoc] at hshort
      refine .cons (fun u hu => ?_) (ih hshort)
      obtain ⟨-, before, -, -, hmarks, hle, -⟩ := htail.placed hshort u hu
      have hstop : t.span.stop.offset.toNat = Text.byteLength (read ++ lexeme) := by
        rw [hspan]
        refine (Span.marks_behind file ?_).stop_offset
        rw [Text.byteLength_append] at hshort
        omega
      rw [UInt32.le_iff_toNat_le, hstop, hmarks.start_offset]
      exact hle
  | @layout read lexeme cs rest p ts _ _ _ ih => exact ih (by rwa [List.append_assoc])

/-- Between two tokens, in front of the first one and behind the last one there
are only white space and comments. What has been read ends with a gap already. -/
theorem gaps (h : Tiling file read cs ts []) (hshort : Text.byteLength (read ++ cs) < 2 ^ 32)
    {before gap : List Char} (hread : read = before ++ gap) (hgap : Layout gap cs) :
    ∀ us t vs, ts ++ [.endOf file (read ++ cs)] = us ++ t :: vs → ∃ before' gap' after,
      read ++ cs = before' ++ (gap' ++ after) ∧
        Text.byteLength before' = stopOr (Text.byteLength before) us ∧
        Text.byteLength (before' ++ gap') = t.span.start.offset.toNat ∧ Layout gap' after := by
  generalize hrest : ([] : List Char) = rest at h
  induction h generalizing before gap with
  | @done read rest =>
      subst hrest hread
      intro us t vs hsplit
      -- The only token is the mark of the end.
      obtain ⟨rfl, rfl, -⟩ : us = [] ∧ t = .endOf file (before ++ gap ++ []) ∧ vs = [] := by
        cases us with
        | nil => simpa [eq_comm] using hsplit
        | cons u us => simp at hsplit
      refine ⟨before, gap, [], List.append_assoc .., rfl, ?_, hgap⟩
      rw [Token.endOf, (Span.marks_behind file (by rwa [List.append_nil])).start_offset,
        List.append_nil]
  | @token read lexeme cs rest p t ts hlexeme _ hwritten hspan _ ih =>
      subst hrest
      rintro (_ | ⟨u, us⟩) t' vs hsplit
      · obtain ⟨rfl, -⟩ := List.cons_eq_cons.mp hsplit
        refine ⟨before, gap, lexeme ++ cs, by rw [hread, List.append_assoc], rfl, ?_, hgap⟩
        rw [hspan, ← hread, (Span.marks_behind file ?_).start_offset]
        simp only [Text.byteLength_append] at hshort ⊢
        omega
      · obtain ⟨rfl, hothers⟩ := List.cons_eq_cons.mp hsplit
        rw [← List.append_assoc] at hshort hothers ⊢
        rw [stopOr_cons, hspan, (Span.marks_behind file ?_).stop_offset]
        · exact ih hshort (List.append_nil _).symm .nil rfl us t' vs hothers
        · rw [Text.byteLength_append] at hshort
          omega
  | @layout read lexeme cs rest p ts hlexeme hkind _ ih =>
      subst hrest
      rw [← List.append_assoc] at hshort ⊢
      exact ih hshort (by rw [hread, List.append_assoc])
        (hgap.append (Layout.of_munches hlexeme hkind)) rfl

theorem laid {source : List Char} (h : Tiling file [] source ts [])
    (hshort : Text.byteLength source < 2 ^ 32) : Laid file source ts where
  placed t ht := by
    obtain ⟨hne, before, after, hsource, hmarks, -, p, hp, hkind⟩ := h.placed hshort t ht
    exact ⟨(h.forall_lexical t ht).1, hne, before, after, hsource, hmarks, hp.whole hkind⟩
  ordered := h.ordered hshort
  gaps := h.gaps hshort (List.append_nil _).symm .nil
  keywords t ht entry hentry := by
    obtain ⟨-, before, after, -, -, -, p, hp, hkind⟩ := h.placed hshort t ht
    exact Pattern.kind_eq_iff_of_mem hp hkind hentry
  last := Span.marks_behind file (by rwa [List.append_nil])

end Tiling

/-! ### Sources -/

/-- A source is laid with longest texts of patterns from its beginning on. If
they cover it, its tokens lie in it as they stand for these texts, and the mark
of its end follows. Else the lexer complains about the first character at which
no text of a pattern begins. -/
theorem tokenize_tiles {source : String} (h : source.utf8ByteSize < 2 ^ 32) (file : Option String) :
    (∀ tokens, tokenize source file = .ok tokens → ∃ ts,
      tokens = ts ++ [.endOf (file.getD "shell") source.toList] ∧
        Tiling (file.getD "shell") [] source.toList ts [] ∧
        Laid (file.getD "shell") source.toList ts) ∧
    ∀ halt, tokenize source file = .error halt → ∃ ts read c rest,
      source.toList = read ++ c :: rest ∧
        Tiling (file.getD "shell") [] source.toList ts (c :: rest) ∧
        (∀ p lexeme, Pattern.Matches p lexeme → ¬ lexeme <+: c :: rest) ∧
        halt = .diagnostic ⟨.unrecognisedToken c.toString,
          ⟨UInt32.ofNat (Text.byteLength read), file.getD "shell"⟩⟩ ∧
        Text.byteLength read < UInt32.size := by
  have hlimit : source.utf8ByteSize < Count.limit := Nat.lt_trans h (by decide)
  have hshort : Text.byteLength source.toList < 2 ^ 32 := by rwa [Text.byteLength_toList]
  obtain ⟨ts, rest, htiles, hrest⟩ := Tiling.exists_tiling (file.getD "shell") [] source.toList
  cases rest with
  | nil =>
      rw [tokenize_of_covered hlimit htiles]
      refine ⟨?_, nofun⟩
      rintro tokens ⟨⟩
      exact ⟨ts, rfl, htiles, htiles.laid hshort⟩
  | cons c rest =>
      obtain ⟨-, read, hsource, -⟩ :=
        htiles.covers (by simpa [Text.byteLength_toList] using hlimit) (Nat.lt_succ_self _)
      rw [tokenize_of_stuck hlimit hsource htiles hrest]
      refine ⟨nofun, ?_⟩
      rintro halt ⟨⟩
      refine ⟨ts, read, c, rest, hsource, htiles, Pattern.first?_eq_none_iff.mp hrest, rfl, ?_⟩
      rw [hsource, Text.byteLength_append] at hshort
      exact Nat.lt_of_le_of_lt (Nat.le_add_right _ _) hshort

/-- A hexadecimal literal right behind a mark that is the beginning of another
one, and characters of several bytes in a comment and in a literal. -/
theorem laid_wide_characters :
    let source := "a<=0x1F // ü\n'∀':"
    source.utf8ByteSize < 2 ^ 32 ∧ ∃ tokens ts, tokenize source none = .ok tokens ∧
      tokens.map (fun t => (t.kind, t.value, t.span.start.offset)) =
        [(.identifier, "a", 0), (.lessEquals, "<=", 1), (.hexNumber, "0x1F", 3),
          (.character, "∀", 14), (.colon, ":", 19), (.eof, "EOF", 20)] ∧
      tokens = ts ++ [.endOf "shell" source.toList] ∧ Laid "shell" source.toList ts := by
  intro source
  have hlength : source.utf8ByteSize < 2 ^ 32 := by decide +kernel
  have hkinds : (tokenize source none).toOption.map
      (·.map fun t => (t.kind, t.value, t.span.start.offset)) =
        some [(.identifier, "a", 0), (.lessEquals, "<=", 1), (.hexNumber, "0x1F", 3),
          (.character, "∀", 14), (.colon, ":", 19), (.eof, "EOF", 20)] := by
    decide +kernel
  obtain ⟨tokens, htokens, hview⟩ := exists_ok_of_map hkinds
  obtain ⟨ts, hts, -, hlaid⟩ := (tokenize_tiles hlength none).1 tokens htokens
  exact ⟨hlength, tokens, ts, htokens, hview, hts, hlaid⟩

end Spl
