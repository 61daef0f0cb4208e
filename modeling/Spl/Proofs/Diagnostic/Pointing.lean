import Spl.Proofs.Diagnostic.Blame
import Spl.Proofs.Parser.Completeness
import Spl.Proofs.Program.Entering
import Spl.Proofs.Safety
import Spl.Proofs.Text.Lines
import Spl.Proofs.Token.Tiling

/-!
Diagnostics of sources. Each has a place in its source, at the start of a token
that shows what it is about, or at a character with which no token can start;
only what is wrong with the procedure `main` has no place.
-/

namespace Spl

/-! ### Tokens of operators -/

theorem Token.marks_of_operators :
    Token.operators.all (fun (kind, op) => kind.carriesValue = false ∧
      (reservedWords.all fun entry => entry.2 ≠ kind) = true ∧
      (Pattern.table.all fun
        | .mark form kind' => kind' = kind → form = op.text.toList
        | _ => true) = true) = true := by
  decide +kernel

/-- Only marks are of the kinds of operators, and each operator has one form. -/
theorem Pattern.spelled_of_kind {p : Pattern} {lexeme : List Char} {t : Token}
    (h : p.Matches lexeme) (hkind : p.kind? lexeme = some t.kind) (hwritten : t.written = lexeme) :
    t.Spelled := by
  intro op hop
  obtain ⟨hvalue, hwords, hmarks⟩ :=
    of_decide_eq_true (List.all_eq_true.mp Token.marks_of_operators _ hop)
  have hcharacter : t.kind ≠ .character := ne_of_carriesValue hvalue rfl
  rw [Token.written, TokenKind.write_of_ne hcharacter] at hwritten
  cases p with
  | blanks | comment => cases hkind
  | hexadecimal | decimal | quotedCharacter =>
      exact absurd (Option.some.inj hkind).symm (ne_of_carriesValue hvalue rfl)
  | word =>
      have hword := (Option.some.inj hkind).symm
      cases hlookup : reservedWords.lookup (String.ofList lexeme) with
      | none =>
          rw [hlookup] at hword
          exact absurd hword (ne_of_carriesValue hvalue rfl)
      | some kind =>
          rw [hlookup] at hword
          obtain ⟨before, after, hsplit, -⟩ := List.lookup_eq_some_iff.mp hlookup
          have hmem : (String.ofList lexeme, kind) ∈ reservedWords := by
            rw [hsplit]
            simp
          exact absurd hword.symm (of_decide_eq_true (List.all_eq_true.mp hwords _ hmem))
  | mark form kind =>
      have hform := of_decide_eq_true (List.all_eq_true.mp hmarks _ h.mem_table)
      cases h with
      | mark => exact String.ext (hwritten.trans (hform (Option.some.inj hkind)))

theorem Tiling.forall_spelled {file : String} {read cs rest : List Char} {ts : List Token}
    (h : Tiling file read cs ts rest) : ∀ t ∈ ts, t.Spelled := by
  induction h with
  | done => exact fun t ht => absurd ht List.not_mem_nil
  | token hlexeme hkind hwritten _ _ ih =>
      exact List.forall_mem_cons.mpr
        ⟨Pattern.spelled_of_kind hlexeme.matched hkind hwritten, ih⟩
  | layout _ _ _ ih => exact ih

/-! ### Sources -/

/-- The position is one of a character of a source or of its end, and lies in a line. -/
structure Position.LiesIn (position : Position) (source file : String) : Prop where
  file_eq : position.file = file
  offset_le : position.offset.toNat ≤ source.utf8ByteSize
  boundary : ∃ before after, source.toList = before ++ after ∧
    position.offset.toNat = Text.byteLength before
  line : (Text.lineAt source position.offset.toNat).isSome = true

theorem Position.liesIn_of_split {position : Position} {source file : String}
    {before after : List Char} (hsource : source.toList = before ++ after)
    (hne : source ≠ "") (hfile : position.file = file)
    (hoffset : position.offset.toNat = Text.byteLength before) : position.LiesIn source file := by
  have hle : position.offset.toNat ≤ source.utf8ByteSize := by
    rw [hoffset, ← Text.byteLength_toList, hsource, Text.byteLength_append]
    exact Nat.le_add_right _ _
  exact ⟨hfile, hle, ⟨before, after, hsource, hoffset⟩, Text.isSome_lineAt_iff.mpr ⟨hne, hle⟩⟩

theorem ne_empty_of_split {source : String} {before lexeme after : List Char}
    (hsource : source.toList = before ++ (lexeme ++ after)) (hne : lexeme ≠ []) : source ≠ "" := by
  rintro rfl
  simp [hne] at hsource

/-- The tokens of a source lie in it. Only in an empty source the mark of the
end lies in no line. -/
theorem liesIn_of_tokenize {source file : String} (hsize : source.utf8ByteSize < 2 ^ 32)
    {tokens : List Token} (h : tokenize source (some file) = .ok tokens) :
    ∃ ts eof, tokens = ts ++ [eof] ∧ eof.kind = .eof ∧ (∀ t ∈ ts, t.kind ≠ .eof ∧ t.Lexical) ∧
      (∀ t ∈ ts, t.Spelled) ∧ (source = "" → ts = []) ∧
      ∀ t ∈ tokens, source ≠ "" → t.span.start.LiesIn source file := by
  have hshort : Text.byteLength source.toList < 2 ^ 32 := by rwa [Text.byteLength_toList]
  obtain ⟨ts, rfl, htiles⟩ := tiling_of_tokenize h
  refine ⟨ts, _, rfl, rfl, htiles.forall_lexical, htiles.forall_spelled, ?_, ?_⟩
  · intro hempty
    refine List.eq_nil_iff_forall_not_mem.mpr fun t ht => ?_
    obtain ⟨hne, before, after, hsource, -⟩ := htiles.placed hshort t ht
    exact ne_empty_of_split hsource hne hempty
  · intro t ht hsource
    obtain ht | ht := List.mem_append.mp ht
    · obtain ⟨hne, before, after, hsplit, hmarks, -⟩ := htiles.placed hshort t ht
      exact Position.liesIn_of_split hsplit hsource hmarks.start_file hmarks.start_offset
    · obtain rfl := List.mem_singleton.mp ht
      have hmarks : (Token.endOf file source.toList).span.Marks file source.toList [] :=
        Span.marks_behind file (by rwa [List.append_nil])
      exact Position.liesIn_of_split (List.append_nil _).symm hsource hmarks.start_file
        hmarks.start_offset

/-! ### Phases -/

/-- A complaint of the parser is about a token, and shows its value. -/
theorem Parser.Complains.points {t : Token} {us rest ts : List Token} {d : Diagnostic}
    (h : Complains t us d rest) (ht : t ∈ ts) : d.Points ts := by
  cases h <;> exact ⟨t, ht, rfl, rfl⟩

theorem points_of_parse_error {file : String} {tokens rest : List Token} {halt : Halt}
    (htokens : Legible tokens) (h : parse file tokens = .error halt rest) :
    ∃ d, halt = .diagnostic d ∧ d.Points tokens := by
  have hprogram : parse file tokens = Grammar.standard.program file tokens := rfl
  cases Grammar.reacts_program file htokens.closed with
  | @answer pre post t p split _ _ run =>
      rw [hprogram, split, run post _ (Nat.lt_succ_self _)] at h
      cases h
  | @complaint pre post t d split _ _ run =>
      obtain ⟨rest', hcomplains, herror⟩ := run post
      rw [hprogram, split, herror _ (Nat.lt_succ_self _)] at h
      cases h
      exact ⟨d, rfl, hcomplains.points (by rw [split]; simp)⟩

/-- What the checker reads of a procedure is the same before and after the table is built. -/
theorem bodyPlaced_of_eraseTypes {ts : List Token} {p built : Program}
    (hbuilt : built.eraseTypes = p.eraseTypes) (hp : ∀ d ∈ p.declarations, d.Placed ts) :
    ∀ q ∈ built.procedures, q.BodyPlaced ts := by
  intro q hq
  have hmem : q.eraseTypes ∈ p.procedures.map Procedure.eraseTypes := by
    rw [← Program.procedures_eraseTypes, ← hbuilt, Program.procedures_eraseTypes]
    exact List.mem_map_of_mem hq
  obtain ⟨q', hq', heq⟩ := List.mem_map.mp hmem
  have hname : q'.name = q.name := (congrArg Procedure.name heq :)
  have hbody : q'.body = q.body := (congrArg Procedure.body heq :)
  have hposition : q'.position = q.position := (congrArg Procedure.position heq :)
  have hplaced : q'.Placed ts := hp _ (Program.mem_procedures_iff.mp hq')
  refine ⟨hbody ▸ hplaced.body, ?_⟩
  rw [← hname, ← hposition]
  exact hplaced.name.mono fun t ht => ht.1

/-- What was read stands where the tokens in front of the end show it. -/
theorem placed_of_parse {file : String} {ts rest : List Token} {eof : Token} {p : Program}
    (hlexical : ∀ t ∈ ts, t.kind ≠ .eof ∧ t.Lexical) (heof : eof.kind = .eof)
    (hspelled : ∀ t ∈ ts, t.Spelled) (h : parse file (ts ++ [eof]) = .ok p rest) :
    ∀ d ∈ p.declarations, d.Placed ts := by
  have hruns := Grammar.runs_program file ((Legible.last heof).append hlexical)
  obtain ⟨pre, last, hsplit, hderives, -, -⟩ := hruns.of_ok h
  obtain ⟨rfl, -⟩ := List.append_inj' hsplit rfl
  exact Program.Derives.placed hspelled hderives List.infix_rfl

theorem ne_empty_of_parse_error {file : String} {source : String} {ts rest : List Token}
    {eof : Token} {halt : Halt} (heof : eof.kind = .eof) (hempty : source = "" → ts = [])
    (h : parse file (ts ++ [eof]) = .error halt rest) : source ≠ "" := by
  intro hsource
  obtain rfl := hempty hsource
  have hread := Grammar.program_of_derives file (Sequence.nil (D := Declaration.Derives .nearest))
    (fun t ht => absurd ht List.not_mem_nil) heof
  rw [show parse file ([] ++ [eof]) = _ from hread] at h
  cases h

/-! ### Points -/

theorem Cause.ShownBy.mono {us ts : List Token} (hus : us <:+: ts) {cause : Cause} {t : Token}
    (h : cause.ShownBy us t) : cause.ShownBy ts t := by
  cases cause with
  | redeclarationAsType _ | indexingNonArray | indexingWithNonInteger | tableDumpFailed _ =>
      obtain ⟨hkind, u, hpair, hu⟩ := h
      exact ⟨hkind, u, hpair.trans hus, hu⟩
  | noSuchOperator _ _ right => cases right <;> exact h
  | _ => exact h

namespace Diagnostic.Points

variable {us ts : List Token} {d : Diagnostic}

theorem mono (hus : us <:+: ts) (h : d.Points us) : d.Points ts := by
  obtain ⟨t, ht, hstart, hshown⟩ := h
  exact ⟨t, hus.subset ht, hstart, hshown.mono hus⟩

theorem liesIn {source file : String} (h : d.Points ts)
    (hts : ∀ t ∈ ts, t.span.start.LiesIn source file) : d.position.LiesIn source file := by
  obtain ⟨t, ht, hstart, -⟩ := h
  rw [← hstart]
  exact hts t ht

theorem ne_nil (h : d.Points ts) : ts ≠ [] := by
  obtain ⟨t, ht, -⟩ := h
  exact List.ne_nil_of_mem ht

end Diagnostic.Points

/-- The lexer has stopped at a character of the source, and the diagnostic names it. -/
structure Diagnostic.IsOfLexer (d : Diagnostic) (source file : String) : Prop where
  tokenize_eq : tokenize source (some file) = .error (.diagnostic d)
  character : ∃ before c after, source.toList = before ++ c :: after ∧
    d.cause = .unrecognisedToken c.toString ∧
    d.position.offset.toNat = Text.byteLength before

theorem liesIn_of_tokenize_error {source file : String} (hsize : source.utf8ByteSize < 2 ^ 32)
    {halt : Halt} (h : tokenize source (some file) = .error halt) :
    ∃ d, halt = .diagnostic d ∧ d.IsOfLexer source file ∧ d.position.LiesIn source file := by
  obtain ⟨ts, htokens, -⟩ | ⟨ts, before, c, after, hsource, herror, -, -⟩ :=
    tokenize_covered_or_stuck (Nat.lt_trans hsize (by decide)) (some file)
  · rw [htokens] at h
    cases h
  · have hoffset : (UInt32.ofNat (Text.byteLength before)).toNat = Text.byteLength before := by
      refine UInt32.toNat_ofNat_of_lt' (Nat.lt_of_le_of_lt ?_ hsize)
      rw [← Text.byteLength_toList, hsource, Text.byteLength_append]
      exact Nat.le_add_right _ _
    have hsplit : source.toList = before ++ ([c] ++ after) := hsource
    have hne : source ≠ "" := ne_empty_of_split hsplit (List.cons_ne_nil c [])
    have hd := herror
    rw [h] at hd
    cases hd
    exact ⟨_, rfl, ⟨h, before, c, after, hsource, rfl, hoffset⟩,
      Position.liesIn_of_split hsource hne rfl hoffset⟩

/-- The diagnostic has a place in the source, where a token starts that shows
what it is about. -/
structure Diagnostic.PointsInto (d : Diagnostic) (source file : String) : Prop where
  liesIn : d.position.LiesIn source file
  points : ∃ tokens, tokenize source (some file) = .ok tokens ∧ d.Points tokens

/-- What is blamed on tokens in front of the end has a place in the source. -/
theorem Diagnostic.pointsInto_of_points {source file : String} {ts : List Token} {eof : Token}
    (htokens : tokenize source (some file) = .ok (ts ++ [eof]))
    (hempty : source = "" → ts = [])
    (hlies : ∀ t ∈ ts ++ [eof], source ≠ "" → t.span.start.LiesIn source file) {d : Diagnostic}
    (h : d.Points ts) : d.PointsInto source file := by
  have hne : source ≠ "" := fun hsource => h.ne_nil (hempty hsource)
  have hpoints : d.Points (ts ++ [eof]) := h.mono (List.prefix_append ts [eof]).isInfix
  exact ⟨hpoints.liesIn fun t ht => hlies t ht hne, _, htokens, hpoints⟩

/-- Where an analysis ends with a diagnostic, either the procedure `main` is not
as it should be, or the diagnostic has a place in the source. There the lexer
has found no token, or a token starts that shows what the diagnostic is about:
the name that it names, the word `type` in front of that name, the operator that
it names, the mark of an assignment, the word before a condition, the name
before an index, or the token that the parser has not expected. -/
theorem analyze_error_points {source file : String} (hfile : file ≠ "<null>")
    (hsize : source.utf8ByteSize < 2 ^ 32) {options : Options} {halt : Halt}
    (h : (analyze source file options).result = .error halt) :
    ∃ d, halt = .diagnostic d ∧
      (d.IsOfMain ∨
        d.position.isNull = false ∧ d.position.LiesIn source file ∧
          (d.IsOfLexer source file ∨
            ∃ tokens, tokenize source (some file) = .ok tokens ∧ d.Points tokens)) := by
  have hends := (settles_analyze hsize file options).ends
  rw [h] at hends
  obtain ⟨_, ⟨⟩⟩ | ⟨d, ⟨⟩⟩ := hends
  have hnull : d.position.LiesIn source file → d.position.isNull = false := by
    intro hlies
    rw [Position.isNull, beq_eq_false_iff_ne]
    intro heq
    exact hfile (by rw [← hlies.file_eq, heq]; rfl)
  have hpointing : d.PointsInto source file → d.position.isNull = false ∧
      d.position.LiesIn source file ∧ (d.IsOfLexer source file ∨
        ∃ tokens, tokenize source (some file) = .ok tokens ∧ d.Points tokens) :=
    fun hd => ⟨hnull hd.liesIn, hd.liesIn, .inr hd.points⟩
  refine ⟨d, rfl, ?_⟩
  cases stops_of_analyze h with
  | tokens herror =>
      obtain ⟨_, ⟨⟩, hlexer, hlies⟩ := liesIn_of_tokenize_error hsize herror
      exact .inr ⟨hnull hlies, hlies, .inl hlexer⟩
  | parse htokens herror =>
      obtain ⟨ts, eof, rfl, heof, hlexical, -, hempty, hlies⟩ := liesIn_of_tokenize hsize htokens
      obtain ⟨_, ⟨⟩, hpoints⟩ :=
        points_of_parse_error ((Legible.last heof).append hlexical) herror
      have hne := ne_empty_of_parse_error heof hempty herror
      exact .inr (hpointing ⟨hpoints.liesIn fun t ht => hlies t ht hne, _, htokens, hpoints⟩)
  | tables htokens hparse herror =>
      obtain ⟨ts, eof, rfl, heof, hlexical, hspelled, hempty, hlies⟩ :=
        liesIn_of_tokenize hsize htokens
      have hplaced := placed_of_parse hlexical heof hspelled hparse
      obtain hpoints | hmain := Program.blames_buildTable hplaced 0 .unlimited d herror
      · exact .inr (hpointing (Diagnostic.pointsInto_of_points htokens hempty hlies hpoints))
      · exact .inl hmain
  | semant htokens hparse _ herror =>
      obtain ⟨ts, eof, rfl, heof, hlexical, hspelled, hempty, hlies⟩ :=
        liesIn_of_tokenize hsize htokens
      have hplaced := placed_of_parse hlexical heof hspelled hparse
      have hbodies := bodyPlaced_of_eraseTypes (Program.leaves_buildTable options _ 0 .unlimited)
        hplaced
      have hpoints := Program.blames_check hbodies d herror
      exact .inr (hpointing (Diagnostic.pointsInto_of_points htokens hempty hlies hpoints))

/-- The second declaration of a type is blamed on its word `type`. -/
theorem points_at_second_declaration : ∃ (d : Diagnostic) (tokens : List Token),
    (analyze "// ü\ntype t = int; type t = int;" "a.spl" .default).result =
      .error (.diagnostic d) ∧
    d.cause = .redeclarationAsType "t" ∧ d.position.offset = 20 ∧
    tokenize "// ü\ntype t = int; type t = int;" (some "a.spl") = .ok tokens ∧
    d.Points tokens := by
  have hfails : (analyze "// ü\ntype t = int; type t = int;" "a.spl"
      .default).diagnosed.result.toOption =
      some (some ⟨.redeclarationAsType "t", ⟨20, "a.spl"⟩⟩) := by
    decide +kernel
  have hsize : "// ü\ntype t = int; type t = int;".utf8ByteSize < 2 ^ 32 := by decide +kernel
  cases hresult : (analyze "// ü\ntype t = int; type t = int;" "a.spl" .default).result with
  | ok found =>
      rw [Outcome.diagnosed, hresult] at hfails
      cases hfails
  | error halt =>
      obtain ⟨d, rfl, hd⟩ := analyze_error_points (by decide) hsize hresult
      rw [Outcome.diagnosed, hresult] at hfails
      cases hfails
      obtain hmain | ⟨-, -, hlexer | ⟨tokens, htokens, hpoints⟩⟩ := hd
      · exact absurd hmain (by simp [Diagnostic.IsOfMain])
      · obtain ⟨_, _, _, -, hcause, -⟩ := hlexer.character
        cases hcause
      · exact ⟨_, tokens, rfl, rfl, rfl, htokens, hpoints⟩

end Spl
