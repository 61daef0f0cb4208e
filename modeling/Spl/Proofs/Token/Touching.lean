import Spl.Proofs.Token.Spacing

/-!
Lexemes that touch one another. Words and numbers end in front of every
character that no word has in it, and a mark with which no other pattern begins
ends anywhere.
-/

namespace Spl

namespace Pattern

variable {p : Pattern} {lexeme form next : List Char}

/-- A word or a number ends in front of what is no part of words. -/
theorem Matches.munches_of_not_isWordChar (h : p.Matches lexeme) (hp : p ∈ ofWordChars)
    (hnext : next.head?.any isWordChar = false) : p.Munches lexeme (lexeme ++ next) := by
  refine h.munches_append fun q c more hmore hq => ?_
  obtain ⟨next, rfl⟩ := hmore
  have hapart : ∀ p ∈ ofWordChars, ∀ q ∈ table, q ∈ ofWordChars ∨ p.apart q = true := by decide
  rcases hapart p hp q hq.mem_table with hq' | hapart
  · refine Bool.eq_false_iff.mp hnext (hq.isWordChar_of_mem_tail hq' ?_)
    rw [List.tail_append_of_ne_nil h.ne_nil]
    exact List.mem_append_right _ List.mem_cons_self
  · exact not_prefix_of_apart hapart h hq (List.prefix_append lexeme _) List.prefix_rfl

/-- A mark ends in front of everything if no other pattern begins like it. -/
theorem munches_mark (kind : TokenKind) (h : mark form kind ∈ table)
    (hapart : ∀ q ∈ table, q = mark form kind ∨ (mark form kind).apart q = true)
    (next : List Char) : (mark form kind).Munches form (form ++ next) := by
  refine (Matches.mark h).munches_append fun q c more _ hq => ?_
  rcases hapart q hq.mem_table with rfl | hapart
  · generalize htext : form ++ c :: more = text at hq
    cases hq with
    | mark => simp at htext
  · exact not_prefix_of_apart hapart (.mark h) hq (List.prefix_append form _) List.prefix_rfl

end Pattern

/-! ### Texts -/

/-- Behind `read`, the text is cut into tokens that are read from the lexemes. -/
def Cuts (file : String) (read cs : List Char) (lexemes : List String) : Prop :=
  ∃ ts, Tiling file read cs ts [] ∧ List.Forall₂ Token.Reads ts lexemes

namespace Cuts

variable {file : String} {read cs : List Char} {s : String} {ss : List String}

theorem nil : Cuts file read [] [] :=
  ⟨[], .done, .nil⟩

theorem lexeme {p : Pattern} {kind : TokenKind} (hs : p.Munches s.toList (s.toList ++ cs))
    (hkind : p.kind? s.toList = some kind) (h : Cuts file (read ++ s.toList) cs ss) :
    Cuts file read (s.toList ++ cs) (s :: ss) := by
  obtain ⟨ts, htiles, hts⟩ := h
  obtain ⟨value, hvalue⟩ := Pattern.exists_write hs.matched hkind
  let t : Token := ⟨kind, value, .behind file read s.toList⟩
  exact ⟨t :: ts, .token hs hkind hvalue rfl htiles,
    .cons ⟨⟨p, hs.matched, hkind⟩, hvalue⟩ hts⟩

/-- A word or a number in front of what is no part of words. -/
theorem wordChars {p : Pattern} {kind : TokenKind} (hs : p.Matches s.toList)
    (hp : p ∈ Pattern.ofWordChars) (hkind : p.kind? s.toList = some kind)
    (hnext : cs.head?.any isWordChar = false)
    (h : Cuts file (read ++ s.toList) cs ss) : Cuts file read (s.toList ++ cs) (s :: ss) :=
  .lexeme (hs.munches_of_not_isWordChar hp hnext) hkind h

theorem blank {c : Char} (hc : Text.isBlank c = true) (h : Cuts file (read ++ [c]) cs ss) :
    Cuts file read (c :: cs) ss := by
  obtain ⟨ts, htiles, hts⟩ := h
  exact ⟨ts, htiles.blank_cons hc rfl, hts⟩

/-- A text that is cut into lexemes is tokenized to them. -/
theorem exists_tokenize {source : String} {file : Option String}
    (h : Cuts (file.getD "shell") [] source.toList ss)
    (hlimit : source.utf8ByteSize < Count.limit) :
    ∃ ts eof, tokenize source file = .ok (ts ++ [eof]) ∧ eof.kind = .eof ∧
      List.Forall₂ Token.Reads ts ss ∧ ∀ t ∈ ts, t.Lexical := by
  obtain ⟨ts, htiles, hts⟩ := h
  exact ⟨ts, _, tokenize_of_covered hlimit htiles, rfl, hts,
    fun t ht => (htiles.forall_lexical t ht).2⟩

end Cuts

end Spl
