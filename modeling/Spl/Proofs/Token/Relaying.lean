import Spl.Proofs.Token.Gaps

/-!
Tokens that are written again with other gaps between them. Whatever the gaps
are, the lexer finds the tokens that were written.
-/

namespace Spl

/-! ### Texts -/

/-- What a token says, wherever it stands. -/
def Token.content (t : Token) : TokenKind × String :=
  (t.kind, t.value)

/-- The tokens as they are written, with a gap behind each. The gap is empty behind the last one
only, if at all. A comment directly behind a slash would take it in. -/
inductive Written : List Token → List Char → Prop
  | nil : Written [] []
  | cons {t : Token} {ts : List Token} {gap cs : List Char} (mixed : Mixed gap)
      (apart : cs ≠ [] → gap ≠ []) (slash : t.kind = .slash → gap.head? ≠ some '/')
      (others : Written ts cs) : Written (t :: ts) (t.written ++ (gap ++ cs))

/-- White space with any gap behind it keeps a token apart from the text that follows. -/
theorem Written.separated {t : Token} {ts : List Token} {run gap cs : List Char} (hne : run ≠ [])
    (hrun : Blank run) (hgap : Mixed gap) (h : Written ts cs) :
    Written (t :: ts) (t.written ++ (run ++ gap ++ cs)) := by
  refine .cons (hgap.blanks_append hrun) (fun _ => List.append_ne_nil_of_left_ne_nil hne gap) ?_ h
  rw [List.head?_append_of_ne_nil _ hne]
  exact fun _ => hrun.head?_ne_slash

/-- The tokens with gaps in front of them, between them and behind them. -/
def Relaid (ts : List Token) (cs : List Char) : Prop :=
  ∃ lead body, cs = lead ++ body ∧ Mixed lead ∧ Written ts body

/-- The token is written like a lexeme of its kind. -/
def Token.IsLexeme (t : Token) : Prop :=
  ∃ p : Pattern, p.Matches t.written ∧ p.kind? t.written = some t.kind

section Texts

variable {file : String} {read rest lead cs : List Char} {t : Token} {ts : List Token}

theorem Tiling.forall_isLexeme (h : Tiling file read cs ts rest) : ∀ t ∈ ts, t.IsLexeme := by
  induction h with
  | done => simp
  | @token _ _ _ _ p _ _ hlexeme hkind hwritten _ _ ih =>
      subst hwritten
      exact List.forall_mem_cons.mpr ⟨⟨p, hlexeme.matched, hkind⟩, ih⟩
  | layout _ _ _ ih => exact ih

/-- Nothing but a slash is written like one. -/
theorem Token.IsLexeme.kind_eq_slash (h : t.IsLexeme) (hwritten : t.written = ['/']) :
    t.kind = .slash := by
  obtain ⟨p, hp, hkind⟩ := h
  rw [hwritten] at hp hkind
  have hslash : Pattern.Matches (.mark ['/'] .slash) ['/'] := .mark (by decide)
  obtain rfl := hp.munches.unique hslash.munches
  exact (Option.some.inj hkind).symm

/-- A text that the tokens were written to is cut into them again. -/
theorem Written.exists_tiling (h : Written ts cs) (hts : ∀ t ∈ ts, t.IsLexeme) (hlead : Mixed lead)
    (read : List Char) :
    ∃ us, Tiling file read (lead ++ cs) us [] ∧ us.map Token.content = ts.map Token.content := by
  induction h generalizing lead read with
  | nil => exact ⟨[], .mixed hlead .done, rfl⟩
  | @cons t ts gap cs hmixed hapart hslash _ ih =>
      obtain ⟨ht, hts⟩ := List.forall_mem_cons.mp hts
      obtain ⟨us, htiles, hus⟩ := ih hts hmixed (read ++ lead ++ t.written)
      obtain ⟨p, hp, hkind⟩ := ht
      have hgap : ∀ c, (gap ++ cs).head? = some c → gap.head? = some c := by
        intro c hc
        have hne : gap ≠ [] := by
          rintro rfl
          exact hapart (by rintro rfl; cases hc) rfl
        rwa [List.head?_append_of_ne_nil _ hne] at hc
      let u : Token := ⟨t.kind, t.value, .behind file (read ++ lead) t.written⟩
      refine ⟨u :: us, .mixed hlead (.token ?_ hkind rfl rfl htiles), ?_⟩
      · refine hp.munches_of_gapStart hkind (fun c hc => hmixed.gapStart (hgap c hc)) ?_
        exact fun hwritten hc =>
          hslash (Token.IsLexeme.kind_eq_slash ⟨p, hp, hkind⟩ hwritten) (hgap '/' hc)
      · rw [List.map_cons, List.map_cons, hus]
        rfl

theorem Relaid.exists_tiling (h : Relaid ts cs) (hts : ∀ t ∈ ts, t.IsLexeme) (read : List Char) :
    ∃ us, Tiling file read cs us [] ∧ us.map Token.content = ts.map Token.content := by
  obtain ⟨lead, body, rfl, hlead, hbody⟩ := h
  exact hbody.exists_tiling hts hlead read

end Texts

/-! ### Sources -/

/-- The tokens of a source that are written again are found again, and so is
the mark of the end. -/
theorem tokenize_of_relaid {source text : String} {file : Option String} {tokens : List Token}
    (h : tokenize source file = .ok tokens) (hrelaid : Relaid tokens.dropLast text.toList)
    (hlimit : text.utf8ByteSize < Count.limit) (file' : Option String) :
    ∃ tokens', tokenize text file' = .ok tokens' ∧
      tokens'.map Token.content = tokens.map Token.content := by
  obtain ⟨ts, rfl, htiles⟩ := tiling_of_tokenize h
  rw [List.dropLast_concat] at hrelaid
  obtain ⟨us, hus, hcontent⟩ := hrelaid.exists_tiling htiles.forall_isLexeme []
  refine ⟨_, tokenize_of_covered hlimit hus, ?_⟩
  rw [List.map_append, List.map_append, hcontent]
  rfl

end Spl
