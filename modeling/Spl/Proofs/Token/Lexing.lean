import Spl.Proofs.Parser.Runs
import Spl.Proofs.Text.Bytes
import Spl.Proofs.Token.Munch
import Spl.Token.Lexer

/-!
The lexer on any source. It lays tiles: at all times it stands between two
parts of its source, and goes on by the longest text of any pattern that the
second part begins with. Either the tiles cover the source, and the tokens are
those that some of the tiles stand for, or the lexer ends where no pattern is
found.
-/

namespace Spl

/-! ### Lexemes -/

/-- The form in which a value stands in a source text. -/
def TokenKind.write (kind : TokenKind) (value : String) : List Char :=
  if kind = .character then '\'' :: (value.toList ++ ['\'']) else value.toList

theorem TokenKind.write_of_ne {kind : TokenKind} (h : kind ≠ .character) (value : String) :
    kind.write value = value.toList :=
  if_neg h

/-- The form in which a token stands in a source text. -/
def Token.written (t : Token) : List Char := t.kind.write t.value

namespace Pattern

variable {p : Pattern} {kind : TokenKind} {value : String} {lexeme : List Char}

/-- The kind of the token that a lexeme stands for, if it stands for one. -/
def kind? : Pattern → List Char → Option TokenKind
  | word, lexeme => some ((reservedWords.lookup (String.ofList lexeme)).getD .identifier)
  | hexadecimal, _ => some .hexNumber
  | decimal, _ => some .number
  | quotedCharacter, _ => some .character
  | blanks, _ => none
  | comment, _ => none
  | mark _ kind, _ => some kind

theorem kind_of_word (value : String) :
    let kind := (reservedWords.lookup value).getD .identifier
    kind ≠ .eof ∧ kind ≠ .number ∧ kind ≠ .hexNumber ∧ kind ≠ .character := by
  cases hlookup : reservedWords.lookup value with
  | none => decide
  | some kind =>
      have hmem : ∀ entry ∈ reservedWords, entry.2 ≠ .eof ∧ entry.2 ≠ .number ∧
          entry.2 ≠ .hexNumber ∧ entry.2 ≠ .character := by
        decide
      obtain ⟨before, after, hwords, -⟩ := List.lookup_eq_some_iff.mp hlookup
      exact hmem (value, kind) (by rw [hwords]; simp)

theorem ne_of_carriesValue {kind kind' : TokenKind} (h : kind.carriesValue = false)
    (h' : kind'.carriesValue = true) : kind ≠ kind' := by
  rintro rfl
  rw [h'] at h
  cases h

/-- What stands between the quotes of a character. -/
theorem Matches.exists_inner (h : quotedCharacter.Matches lexeme) :
    ∃ inner, lexeme = '\'' :: (inner ++ ['\'']) ∧
      (inner = ['\\', 'n'] ∨ ∃ c, inner = [c] ∧ c ≠ '\'' ∧ c ≠ '\\') := by
  cases h with
  | newline => exact ⟨['\\', 'n'], rfl, .inl rfl⟩
  | @character c hquote hbackslash => exact ⟨[c], rfl, .inr ⟨c, rfl, hquote, hbackslash⟩⟩

/-- The quotes of a character are cut off, whatever stands between them. -/
theorem unquote_quoted (inner : List Char) : unquote ('\'' :: (inner ++ ['\''])) = .ok inner := by
  have hopened : Text.dropBytes? 1 ('\'' :: (inner ++ ['\''])) = some (inner ++ ['\'']) :=
    Text.dropBytes?_append ['\''] (inner ++ ['\''])
  have hlength : Text.byteLength ('\'' :: (inner ++ ['\''])) - 2 = Text.byteLength inner := by
    have hquote : '\''.utf8Size = 1 := rfl
    simp only [Text.byteLength_cons, Text.byteLength_append, Text.byteLength_nil, hquote]
    omega
  rw [unquote, hopened, Option.bind_some, hlength, Text.takeBytes?_append]

theorem tokenOf_of_layout (h : p.kind? lexeme = none) : p.tokenOf lexeme = .ok none := by
  cases p with
  | blanks | comment => rfl
  | word | hexadecimal | decimal | quotedCharacter | mark => cases h

/-- A lexeme that stands for a token stands for the one that is written like it. -/
theorem tokenOf_of_write (h : p.Matches lexeme) (hkind : p.kind? lexeme = some kind)
    (hvalue : kind.write value = lexeme) : p.tokenOf lexeme = .ok (some (kind, value)) := by
  cases p with
  | blanks | comment => cases hkind
  | quotedCharacter =>
      obtain rfl := Option.some.inj hkind
      obtain ⟨inner, hinner, -⟩ := h.exists_inner
      have hquoted : '\'' :: (value.toList ++ ['\'']) = lexeme := hvalue
      obtain ⟨-, hquoted⟩ := List.cons_eq_cons.mp (hquoted.trans hinner)
      obtain rfl := List.append_cancel_right hquoted
      rw [hinner, tokenOf, unquote_quoted, Except.map, String.ofList_toList]
  | word =>
      obtain rfl := Option.some.inj hkind
      rw [TokenKind.write_of_ne (kind_of_word _).2.2.2] at hvalue
      obtain rfl := hvalue
      rw [tokenOf, String.ofList_toList]
  | hexadecimal | decimal =>
      obtain rfl := Option.some.inj hkind
      obtain rfl : value.toList = lexeme := hvalue
      rw [tokenOf, String.ofList_toList]
  | mark form kind =>
      obtain rfl := Option.some.inj hkind
      obtain ⟨-, -, hcarries, -⟩ := mark_of_mem h.mem_table
      rw [TokenKind.write_of_ne (ne_of_carriesValue hcarries rfl)] at hvalue
      cases h with
      | mark => rw [tokenOf, ← hvalue, String.ofList_toList]

theorem exists_write (h : p.Matches lexeme) (hkind : p.kind? lexeme = some kind) :
    ∃ value, kind.write value = lexeme := by
  by_cases hcharacter : kind = .character
  · subst hcharacter
    cases p with
    | quotedCharacter =>
        obtain ⟨inner, rfl, -⟩ := h.exists_inner
        exact ⟨String.ofList inner, by simp [TokenKind.write]⟩
    | blanks | comment | hexadecimal | decimal => cases hkind
    | word => exact absurd (Option.some.inj hkind) (kind_of_word _).2.2.2
    | mark form kind =>
        obtain rfl := Option.some.inj hkind
        cases (mark_of_mem h.mem_table).2.2.1
  · exact ⟨String.ofList lexeme, by rw [TokenKind.write_of_ne hcharacter, String.toList_ofList]⟩

/-- A token that is written like a lexeme has the form that its kind calls for,
and is not the mark of the end. -/
theorem lexical_of_matches {t : Token} (h : p.Matches lexeme) (hkind : p.kind? lexeme = some t.kind)
    (hwritten : t.written = lexeme) : t.kind ≠ .eof ∧ t.Lexical := by
  cases p with
  | blanks | comment => cases hkind
  | quotedCharacter =>
      replace hkind : t.kind = .character := (Option.some.inj hkind).symm
      obtain ⟨inner, hinner, hform⟩ := h.exists_inner
      have hvalue : t.value.toList = inner := by
        simpa [Token.written, TokenKind.write, hkind, hinner] using hwritten
      refine ⟨by rw [hkind]; decide, ?_⟩
      rw [Token.Lexical, hkind, hvalue]
      exact hform
  | word =>
      obtain ⟨heof, hnumber, hhex, hcharacter⟩ := kind_of_word (String.ofList lexeme)
      rw [Option.some.inj hkind] at heof hnumber hhex hcharacter
      exact ⟨heof, Token.lexical_of_kind hnumber hhex hcharacter⟩
  | hexadecimal =>
      replace hkind : t.kind = .hexNumber := (Option.some.inj hkind).symm
      rw [Token.written, TokenKind.write_of_ne (by rw [hkind]; decide)] at hwritten
      cases h with
      | hexadecimal hx hne hdigits =>
          refine ⟨by rw [hkind]; decide, ?_⟩
          rw [Token.Lexical, hkind]
          exact ⟨_, _, hwritten, hx, hne, hdigits⟩
  | decimal =>
      replace hkind : t.kind = .number := (Option.some.inj hkind).symm
      rw [Token.written, TokenKind.write_of_ne (by rw [hkind]; decide)] at hwritten
      cases h with
      | decimal hne hdigits =>
          refine ⟨by rw [hkind]; decide, ?_⟩
          rw [Token.Lexical, hkind, hwritten]
          exact ⟨hne, hdigits⟩
  | mark form kind =>
      obtain ⟨-, -, hcarries, heof⟩ := mark_of_mem h.mem_table
      rw [Option.some.inj hkind] at hcarries heof
      exact ⟨heof, Token.lexical_of_kind (ne_of_carriesValue hcarries rfl)
        (ne_of_carriesValue hcarries rfl) (ne_of_carriesValue hcarries rfl)⟩

end Pattern

/-! ### Steps -/

/-- The span of a text that stands behind `read`. -/
def Span.behind (file : String) (read text : List Char) : Span :=
  ⟨⟨UInt32.ofNat (Text.byteLength read), file⟩,
    ⟨UInt32.ofNat (Text.byteLength (read ++ text)), file⟩⟩

/-- The mark of the end of a source. -/
def Token.endOf (file : String) (source : List Char) : Token :=
  ⟨.eof, "EOF", .behind file source []⟩

namespace Lexer

/-- The lexer that has read the first part of its source. -/
def between (file : String) (read cs : List Char) : Lexer :=
  ⟨read ++ cs, Text.byteLength read, file⟩

variable {file : String} {read lexeme cs : List Char}

@[simp] theorem rest_between : (between file read cs).rest = .ok cs :=
  rest_append read cs file

theorem atEnd_between : (between file read cs).atEnd = true ↔ cs = [] := by
  have hiff : (between file read cs).atEnd = true ↔
      Text.byteLength (read ++ cs) ≤ Text.byteLength read := decide_eq_true_iff
  rw [hiff, Text.byteLength_append]
  constructor
  · intro hend
    by_contra hne
    have := Text.byteLength_pos hne
    omega
  · rintro rfl
    exact Nat.le_refl _

theorem skip_between (h : Text.byteLength (read ++ (lexeme ++ cs)) < Count.limit) :
    (between file read (lexeme ++ cs)).skip (Text.byteLength lexeme) =
      .ok (between file (read ++ lexeme) cs) := by
  simp only [Text.byteLength_append] at h
  rw [skip_of_lt (by rw [between]; dsimp only; omega), between, between, List.append_assoc,
    Text.byteLength_append]

theorem spanOfNext_between (h : Text.byteLength (read ++ (lexeme ++ cs)) < Count.limit) :
    (between file read (lexeme ++ cs)).spanOfNext (Text.byteLength lexeme) =
      .ok (.behind file read lexeme) := by
  simp only [Text.byteLength_append] at h
  rw [spanOfNext_of_lt (by rw [between]; dsimp only; omega), Span.behind, Text.byteLength_append]
  rfl

/-- A step over a lexeme that stands for a token. -/
theorem next_of_token {p : Pattern} {t : Token} (hlexeme : p.Munches lexeme (lexeme ++ cs))
    (hkind : p.kind? lexeme = some t.kind) (hwritten : t.written = lexeme)
    (hspan : t.span = .behind file read lexeme)
    (h : Text.byteLength (read ++ (lexeme ++ cs)) < Count.limit) :
    (between file read (lexeme ++ cs)).next = .ok (some t, between file (read ++ lexeme) cs) := by
  have htoken := Pattern.tokenOf_of_write hlexeme.matched hkind hwritten
  simp only [next, rest_between, Except.mapError, bind, Except.bind,
    Pattern.first?_eq_some_iff.mpr hlexeme, htoken, spanOfNext_between h, skip_between h,
    ← hspan, Option.map_some, pure, Except.pure]

/-- A step over white space or over a comment. -/
theorem next_of_layout {p : Pattern} (hlexeme : p.Munches lexeme (lexeme ++ cs))
    (hkind : p.kind? lexeme = none) (h : Text.byteLength (read ++ (lexeme ++ cs)) < Count.limit) :
    (between file read (lexeme ++ cs)).next = .ok (none, between file (read ++ lexeme) cs) := by
  simp only [next, rest_between, Except.mapError, bind, Except.bind,
    Pattern.first?_eq_some_iff.mpr hlexeme, Pattern.tokenOf_of_layout hkind, spanOfNext_between h,
    skip_between h, Option.map_none, pure, Except.pure]

theorem next_of_none {c : Char} (h : Pattern.first? (c :: cs) = none) :
    (between file read (c :: cs)).next =
      .error
        (Cause.halt (.unrecognisedToken c.toString) (between file read (c :: cs)).position) := by
  simp only [next, current, rest_between, Except.map, Except.mapError, bind, Except.bind, h,
    List.headD_cons]
  rfl

/-- After a step the lexer goes on behind the lexeme. -/
theorem tokensWithin_of_next {n : Nat} {found : Option Token} (hne : lexeme ≠ [])
    (hnext : (between file read (lexeme ++ cs)).next =
      .ok (found, between file (read ++ lexeme) cs)) :
    (between file read (lexeme ++ cs)).tokensWithin (n + 1) =
      ((between file (read ++ lexeme) cs).tokensWithin n).map (found.toList ++ ·) := by
  have hend : ¬ (between file read (lexeme ++ cs)).atEnd = true := by
    rw [atEnd_between]
    simp [hne]
  rw [tokensWithin, if_neg hend, hnext]
  simp only [bind, Except.bind]
  cases (between file (read ++ lexeme) cs).tokensWithin n <;> rfl

end Lexer

/-! ### Tilings -/

/-- Behind `read`, the text consists of longest texts of patterns up to `rest`,
and the tokens are those that they stand for. -/
inductive Tiling (file : String) : List Char → List Char → List Token → List Char → Prop
  | done {read rest : List Char} : Tiling file read rest [] rest
  | token {read lexeme cs rest : List Char} {p : Pattern} {t : Token} {ts : List Token}
      (munches : p.Munches lexeme (lexeme ++ cs)) (kind : p.kind? lexeme = some t.kind)
      (written : t.written = lexeme) (span : t.span = .behind file read lexeme)
      (tail : Tiling file (read ++ lexeme) cs ts rest) :
      Tiling file read (lexeme ++ cs) (t :: ts) rest
  | layout {read lexeme cs rest : List Char} {p : Pattern} {ts : List Token}
      (munches : p.Munches lexeme (lexeme ++ cs)) (kind : p.kind? lexeme = none)
      (tail : Tiling file (read ++ lexeme) cs ts rest) : Tiling file read (lexeme ++ cs) ts rest

namespace Tiling

variable {file : String} {read cs rest : List Char} {ts : List Token}

/-- Tiles can be laid up to where no pattern is found. -/
theorem exists_tiling (file : String) (read cs : List Char) :
    ∃ ts rest, Tiling file read cs ts rest ∧ Pattern.first? rest = none := by
  -- Every tile has a character at least.
  induction hn : cs.length using Nat.strongRecOn generalizing read cs with
  | ind n ih =>
      cases hfirst : Pattern.first? cs with
      | none => exact ⟨[], cs, .done, hfirst⟩
      | some entry =>
          obtain ⟨p, lexeme⟩ := entry
          have hlexeme := Pattern.munches_of_first? hfirst
          obtain ⟨more, rfl⟩ := hlexeme.starts
          have hpos := List.length_pos_iff.mpr hlexeme.matched.ne_nil
          rw [List.length_append] at hn
          obtain ⟨ts, rest, htail, hrest⟩ := ih more.length (by omega) (read ++ lexeme) more rfl
          cases hkind : p.kind? lexeme with
          | none => exact ⟨ts, rest, .layout hlexeme hkind htail, hrest⟩
          | some kind =>
              obtain ⟨value, hvalue⟩ := Pattern.exists_write hlexeme.matched hkind
              let t : Token := ⟨kind, value, .behind file read lexeme⟩
              exact ⟨t :: ts, rest, .token hlexeme hkind hvalue rfl htail, hrest⟩

theorem forall_lexical (h : Tiling file read cs ts rest) : ∀ t ∈ ts, t.kind ≠ .eof ∧ t.Lexical := by
  induction h with
  | done => simp
  | token hlexeme hkind hwritten _ _ ih =>
      exact List.forall_mem_cons.mpr
        ⟨Pattern.lexical_of_matches hlexeme.matched hkind hwritten, ih⟩
  | layout _ _ _ ih => exact ih

/-- From `n` steps on, the lexer answers the tokens and what it finds behind the
tiles, for which a step per byte is left. -/
def Covers (file : String) (read cs : List Char) (ts : List Token) (rest : List Char) (n : Nat) :
    Prop :=
  ∃ m covered, cs = covered ++ rest ∧ Text.byteLength rest < m ∧
    (Lexer.between file read cs).tokensWithin n =
      ((Lexer.between file (read ++ covered) rest).tokensWithin m).map (ts ++ ·)

theorem Covers.of_next {lexeme : List Char} {n : Nat} {found : Option Token} (hne : lexeme ≠ [])
    (hnext : (Lexer.between file read (lexeme ++ cs)).next =
      .ok (found, Lexer.between file (read ++ lexeme) cs))
    (h : Covers file (read ++ lexeme) cs ts rest n) :
    Covers file read (lexeme ++ cs) (found.toList ++ ts) rest (n + 1) := by
  obtain ⟨m, covered, rfl, hm, hrun⟩ := h
  refine ⟨m, lexeme ++ covered, (List.append_assoc ..).symm, hm, ?_⟩
  rw [Lexer.tokensWithin_of_next hne hnext, hrun, List.append_assoc]
  cases (Lexer.between file (read ++ (lexeme ++ covered)) rest).tokensWithin m with
  | error halt => rfl
  | ok us => simp only [Except.map, List.append_assoc]

/-- The lexer goes over the tiles, one in each step. -/
theorem covers (h : Tiling file read cs ts rest) {n : Nat}
    (hlimit : Text.byteLength (read ++ cs) < Count.limit) (hn : Text.byteLength cs < n) :
    Covers file read cs ts rest n := by
  induction h generalizing n with
  | @done read rest =>
      refine ⟨n, [], rfl, hn, ?_⟩
      rw [List.append_nil]
      cases (Lexer.between file read rest).tokensWithin n <;> rfl
  | @token read lexeme cs rest p t ts hlexeme hkind hwritten hspan _ ih =>
      have hne := hlexeme.matched.ne_nil
      have hpos := Text.byteLength_pos hne
      rw [Text.byteLength_append] at hn
      obtain ⟨n, rfl⟩ := Nat.exists_eq_add_of_le' (Nat.lt_of_le_of_lt (Nat.zero_le _) hn)
      exact .of_next hne (Lexer.next_of_token hlexeme hkind hwritten hspan hlimit)
        (ih (by rwa [List.append_assoc]) (by omega))
  | @layout read lexeme cs rest p ts hlexeme hkind _ ih =>
      have hne := hlexeme.matched.ne_nil
      have hpos := Text.byteLength_pos hne
      rw [Text.byteLength_append] at hn
      obtain ⟨n, rfl⟩ := Nat.exists_eq_add_of_le' (Nat.lt_of_le_of_lt (Nat.zero_le _) hn)
      exact .of_next hne (Lexer.next_of_layout hlexeme hkind hlimit)
        (ih (by rwa [List.append_assoc]) (by omega))

end Tiling

/-! ### Counting

The lexer counts the bytes that it has read, so a source that it comes to the
end of is not too long for its counts. -/

section Counting

variable {ε ε' α β : Type}

theorem exists_ok_of_bind {x : Except ε α} {f : α → Except ε β} {b : β} (h : x >>= f = .ok b) :
    ∃ a, x = .ok a ∧ f a = .ok b := by
  cases x with
  | error e => cases h
  | ok a => exact ⟨a, rfl, h⟩

theorem exists_ok_of_mapError {x : Except ε α} {f : ε → ε'} {a : α}
    (h : x.mapError f = .ok a) : x = .ok a := by
  cases x with
  | error e => cases h
  | ok b => rw [Except.ok.inj h]

theorem Lexer.source_of_skip {lexer lexer' : Lexer} {n : Nat} (h : lexer.skip n = .ok lexer') :
    lexer'.source = lexer.source := by
  rw [skip] at h
  cases hadd : Count.add lexer.offset n with
  | error fault =>
      rw [hadd] at h
      cases h
  | ok offset =>
      rw [hadd] at h
      cases h
      rfl

theorem Lexer.source_of_next {lexer lexer' : Lexer} {found : Option Token}
    (h : lexer.next = .ok (found, lexer')) : lexer'.source = lexer.source := by
  rw [next] at h
  obtain ⟨cs, -, h⟩ := exists_ok_of_bind h
  split at h
  · obtain ⟨c, -, h⟩ := exists_ok_of_bind h
    cases h
  · obtain ⟨written, -, h⟩ := exists_ok_of_bind h
    obtain ⟨span, -, h⟩ := exists_ok_of_bind h
    obtain ⟨skipped, hskip, h⟩ := exists_ok_of_bind h
    cases h
    exact source_of_skip (exists_ok_of_mapError hskip)

/-- The lexer counts its way to the end of the source. -/
theorem Lexer.lt_limit_of_tokensWithin {n : Nat} {lexer : Lexer} {tokens : List Token}
    (h : lexer.tokensWithin n = .ok tokens) : Text.byteLength lexer.source < Count.limit := by
  induction n generalizing lexer tokens with
  | zero => cases h
  | succ n ih =>
      rw [tokensWithin] at h
      split at h
      · next hend =>
          obtain ⟨span, hspan, -⟩ := exists_ok_of_bind h
          rw [spanOfNext] at hspan
          cases hadd : Count.add lexer.offset 0 with
          | error fault =>
              rw [hadd] at hspan
              cases hspan
          | ok stop =>
              have hstop := (Count.add_eq_ok_iff).mp hadd
              have hle : Text.byteLength lexer.source ≤ lexer.offset := of_decide_eq_true hend
              omega
      · obtain ⟨⟨found, lexer'⟩, hnext, h⟩ := exists_ok_of_bind h
        obtain ⟨others, hothers, -⟩ := exists_ok_of_bind h
        rw [← source_of_next hnext]
        exact ih hothers

end Counting

/-! ### Sources -/

section Sources

variable {source : String} {file : Option String} {ts : List Token}

theorem tokenize_eq (source : String) (file : Option String) :
    tokenize source file = (Lexer.between (file.getD "shell") [] source.toList).tokensWithin
      (Text.byteLength source.toList + 1) := rfl

/-- If the tiles cover the source, their tokens and the mark of the end are its
tokens. -/
theorem tokenize_of_covered (h : source.utf8ByteSize < Count.limit)
    (htiles : Tiling (file.getD "shell") [] source.toList ts []) :
    tokenize source file = .ok (ts ++ [.endOf (file.getD "shell") source.toList]) := by
  have hlimit : Text.byteLength ([] ++ source.toList) < Count.limit := by
    rwa [List.nil_append, Text.byteLength_toList]
  obtain ⟨m, covered, hcovered, hm, hrun⟩ := htiles.covers hlimit (Nat.lt_succ_self _)
  rw [List.append_nil] at hcovered
  obtain ⟨m, rfl⟩ := Nat.exists_eq_add_of_lt hm
  subst hcovered
  have hspan : (Lexer.between (file.getD "shell") source.toList []).spanOfNext 0 =
      .ok (.behind (file.getD "shell") source.toList []) :=
    @Lexer.spanOfNext_between _ source.toList [] [] (by simpa using hlimit)
  rw [tokenize_eq, hrun, List.nil_append, Lexer.tokensWithin, if_pos (Lexer.atEnd_between.mpr rfl),
    hspan]
  rfl

/-- Where no pattern is found, the lexer complains about the character there. -/
theorem tokenize_of_stuck (h : source.utf8ByteSize < Count.limit) {read rest : List Char} {c : Char}
    (hsource : source.toList = read ++ c :: rest)
    (htiles : Tiling (file.getD "shell") [] source.toList ts (c :: rest))
    (hnone : Pattern.first? (c :: rest) = none) :
    tokenize source file = .error (Cause.halt (.unrecognisedToken c.toString)
      ⟨UInt32.ofNat (Text.byteLength read), file.getD "shell"⟩) := by
  have hlimit : Text.byteLength ([] ++ source.toList) < Count.limit := by
    rwa [List.nil_append, Text.byteLength_toList]
  obtain ⟨m, covered, hcovered, hm, hrun⟩ := htiles.covers hlimit (Nat.lt_succ_self _)
  obtain rfl := List.append_cancel_right (hcovered.symm.trans hsource)
  obtain ⟨m, rfl⟩ := Nat.exists_eq_add_of_lt hm
  have hend : ¬ (Lexer.between (file.getD "shell") covered (c :: rest)).atEnd = true := by
    rw [Lexer.atEnd_between]
    exact List.cons_ne_nil c rest
  rw [tokenize_eq, hrun, List.nil_append, Lexer.tokensWithin, if_neg hend, Lexer.next_of_none hnone]
  rfl

/-- A source either is covered by tiles, or has a character where none can be laid. -/
theorem tokenize_covered_or_stuck (h : source.utf8ByteSize < Count.limit) (file : Option String) :
    (∃ ts, tokenize source file = .ok (ts ++ [.endOf (file.getD "shell") source.toList]) ∧
      Tiling (file.getD "shell") [] source.toList ts []) ∨
    ∃ ts read c rest, source.toList = read ++ c :: rest ∧
      tokenize source file = .error (Cause.halt (.unrecognisedToken c.toString)
        ⟨UInt32.ofNat (Text.byteLength read), file.getD "shell"⟩) ∧
      Tiling (file.getD "shell") [] source.toList ts (c :: rest) ∧
      Pattern.first? (c :: rest) = none := by
  obtain ⟨ts, rest, htiles, hrest⟩ := Tiling.exists_tiling (file.getD "shell") [] source.toList
  cases rest with
  | nil => exact .inl ⟨ts, tokenize_of_covered h htiles, htiles⟩
  | cons c rest =>
      obtain ⟨-, read, hsource, -⟩ :=
        htiles.covers (by simpa [Text.byteLength_toList] using h) (Nat.lt_succ_self _)
      exact .inr ⟨ts, read, c, rest, hsource, tokenize_of_stuck h hsource htiles hrest, htiles,
        hrest⟩

/-- The tokens of a source that can be tokenized tile it, the mark of the end apart. -/
theorem tiling_of_tokenize {tokens : List Token} (h : tokenize source file = .ok tokens) :
    ∃ ts, tokens = ts ++ [.endOf (file.getD "shell") source.toList] ∧
      Tiling (file.getD "shell") [] source.toList ts [] := by
  have hlimit : source.utf8ByteSize < Count.limit := by
    rw [← Text.byteLength_toList]
    exact Lexer.lt_limit_of_tokensWithin h
  obtain ⟨ts, htokens, htiles⟩ | ⟨_, _, _, _, -, herror, -⟩ := tokenize_covered_or_stuck hlimit file
  · exact ⟨ts, Except.ok.inj (h.symm.trans htokens), htiles⟩
  · cases h.symm.trans herror

/-- The tokens of a source can be read, or a diagnostic names what is no token. -/
theorem settles_tokenize (h : source.utf8ByteSize < 2 ^ 32) (file : Option String) :
    Settles (tokenize source file) Legible := by
  have hlimit : source.utf8ByteSize < Count.limit := Nat.lt_trans h (by decide)
  obtain ⟨ts, htokens, htiles⟩ | ⟨ts, read, c, rest, -, herror, -⟩ :=
    tokenize_covered_or_stuck hlimit file
  · rw [htokens]
    exact (Legible.last rfl).append htiles.forall_lexical
  · rw [herror]
    exact Settles.halt _ _

end Sources

end Spl
