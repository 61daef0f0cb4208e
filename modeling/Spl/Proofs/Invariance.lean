import Spl.Proofs.Parser.Naturality
import Spl.Proofs.Program.Naturality
import Spl.Proofs.Safety
import Spl.Proofs.Token.Relaying

/-!
The layout of a source has no meaning. Written again with other gaps between
them, its tokens are found again, at other places; and from the tokens on no
phase looks into places. So whatever the analysis of the one text says of the
program, that of the other says too.
-/

namespace Spl

/-! ### From the tokens on -/

/-- What is read from tokens with other labels. -/
def relabelRead (ρ : Relabelling) (x : Except Halt Program) : Except Halt Program :=
  (x.map (Program.relabel ρ)).mapError (Halt.relabel ρ)

/-- The outcome of an analysis with other labels. Tables and listings hold no places. -/
def relabelAnalysis (ρ : Relabelling) (x : Except Halt (Program × SymbolTable)) :
    Except Halt (Program × SymbolTable) :=
  (x.map (Prod.map (Program.relabel ρ) id)).mapError (Halt.relabel ρ)

section Tokens

variable {ρ : Relabelling} (hρ : ρ.KeepsNames) {file file' : String}
  (hfile : ρ.place ⟨0, file⟩ = ⟨0, file'⟩)
include hρ hfile

theorem parseTokens_relabel (tokens : List Token) :
    parseTokens (tokens.map ρ.token) file' = relabelRead ρ (parseTokens tokens file) := by
  have hnatural := Grammar.standard.natural_program hfile tokens
  rw [parseTokens, parseTokens, parse, parse]
  cases hparse : Grammar.standard.program file tokens with
  | ok p rest =>
      rw [hparse] at hnatural
      rw [show Grammar.standard.program file' (tokens.map ρ.token) = _ from hnatural]
      rfl
  | error halt rest =>
      rw [hparse] at hnatural
      obtain ⟨halt', hcomplaint, hparse'⟩ := hnatural
      rw [hparse', hcomplaint.eq_relabel hρ]
      rfl

/-- An analysis does not look into places. -/
theorem analyzeTokens_relabel (hnull : ρ.place .null = .null) (tokens : List Token)
    (options : Options) :
    (analyzeTokens (tokens.map ρ.token) file' options).after =
        (analyzeTokens tokens file options).after ∧
      (analyzeTokens (tokens.map ρ.token) file' options).result =
        relabelAnalysis ρ (analyzeTokens tokens file options).result := by
  rw [analyzeTokens, analyzeTokens, parseTokens_relabel hρ hfile]
  cases parseTokens tokens file with
  | error halt => exact ⟨rfl, rfl⟩
  | ok p =>
      rw [show relabelRead ρ (.ok p) = .ok (p.relabel ρ) from rfl]
      dsimp only
      rw [Program.buildTable_relabel hρ hnull]
      generalize p.buildTable options 0 .unlimited = built
      obtain ⟨⟨p, d⟩, result⟩ := built
      cases result with
      | error halt => exact ⟨rfl, rfl⟩
      | ok table =>
          have hanswer : ∀ checked : Outcome Program Unit,
              ((checked.relabel ρ (Program.relabel ρ)).result.map fun _ =>
                ((checked.relabel ρ (Program.relabel ρ)).after, table)) =
                relabelAnalysis ρ (checked.result.map fun _ => (checked.after, table)) := by
            rintro ⟨x, result⟩
            cases result <;> rfl
          have hcheck := Program.check_relabel (hρ.renamed_table table) p
          exact ⟨rfl, (congrArg (fun checked : Outcome Program Unit =>
            checked.result.map fun _ => (checked.after, table)) hcheck).trans (hanswer _)⟩

end Tokens

/-! ### From the source on -/

/-- What two analyses say is the same up to places: they finish with the same
annotated program and the same table, or end with the same diagnosis. -/
inductive SameMeaning : Except Halt (Program × SymbolTable) →
    Except Halt (Program × SymbolTable) → Prop
  | ok {p q : Program} (table : SymbolTable) (h : p.relabel .placeless = q.relabel .placeless) :
      SameMeaning (.ok (p, table)) (.ok (q, table))
  | error (cause : Cause) (position position' : Position) :
      SameMeaning (.error (cause.halt position)) (.error (cause.halt position'))

theorem SameMeaning.of_relabel {x y : Except Halt (Program × SymbolTable)} (hends : Ends x)
    (h : relabelAnalysis .placeless x = relabelAnalysis .placeless y) : SameMeaning x y := by
  obtain ⟨⟨p, table⟩, rfl⟩ | ⟨⟨cause, position⟩, rfl⟩ := hends
  · match y, h with
    | .ok (q, table'), h =>
        obtain ⟨hp, rfl⟩ := Prod.mk.inj (Except.ok.inj h)
        exact .ok table hp
  · match y, h with
    | .error (.diagnostic ⟨cause', position'⟩), h =>
        have hcause := congrArg Diagnostic.cause (Halt.diagnostic.inj (Except.error.inj h))
        simp only [Diagnostic.relabel, Cause.rename_of_keepsNames Relabelling.keepsNames_placeless]
          at hcause
        rw [← hcause]
        exact .error cause position position'

/-- Without places tokens are what they say. -/
theorem map_placeless_of_content {ts us : List Token}
    (h : ts.map Token.content = us.map Token.content) :
    ts.map Relabelling.placeless.token = us.map Relabelling.placeless.token := by
  have htoken : Relabelling.placeless.token =
      (fun c => ⟨c.1, c.2, ⟨.null, .null⟩⟩) ∘ Token.content := by
    funext t
    simp [Relabelling.token, Relabelling.placeless, Relabelling.span, Token.content]
  rw [htoken, ← List.map_map, h, List.map_map]

/-- The tokens of a source may be written to any other text, with white space
and comments between them. The tokens of that text have the same kinds and
values, and its analysis says the same, whatever the options are and whatever
the files are called. The text is only to be short enough that its bytes can be
counted. -/
theorem analyze_of_relaid {source text file : String} {tokens : List Token}
    (h : tokenize source (some file) = .ok tokens)
    (hrelaid : Relaid tokens.dropLast text.toList) (hlimit : text.utf8ByteSize < Count.limit) :
    (∀ file', ∃ tokens', tokenize text file' = .ok tokens' ∧
      tokens'.map Token.content = tokens.map Token.content) ∧
    ∀ file' options, (analyze text file' options).after = (analyze source file options).after ∧
      SameMeaning (analyze source file options).result (analyze text file' options).result := by
  refine ⟨tokenize_of_relaid h hrelaid hlimit, fun file' options => ?_⟩
  obtain ⟨tokens', htokens, hcontent⟩ := tokenize_of_relaid h hrelaid hlimit (some file')
  have hlegible : Legible tokens := by
    obtain ⟨ts, rfl, htiles⟩ := tiling_of_tokenize h
    exact (Legible.last rfl).append htiles.forall_lexical
  have hends := (settles_analyzeTokens hlegible file options).ends
  -- Without places the two analyses start from the same tokens.
  have hfile : ∀ file, Relabelling.placeless.place ⟨0, file⟩ = ⟨0, "<null>"⟩ := fun _ => rfl
  have hsource := analyzeTokens_relabel Relabelling.keepsNames_placeless (hfile file) rfl tokens
    options
  have htext := analyzeTokens_relabel Relabelling.keepsNames_placeless (hfile file') rfl tokens'
    options
  rw [map_placeless_of_content hcontent] at htext
  rw [analyze_of_tokenize h, analyze_of_tokenize htokens]
  exact ⟨htext.1.symm.trans hsource.1, .of_relabel hends (hsource.2.symm.trans htext.2)⟩

/-- A procedure without statements, and the same with comments. -/
theorem same_meaning_with_comments :
    let text := "// first\nproc\tmain ( // none\n) \x7b\n\x7d// last\n"
    ∃ tokens, tokenize "proc main()\x7b\x7d" (some "a.spl") = .ok tokens ∧
      Relaid tokens.dropLast text.toList ∧ text.utf8ByteSize < Count.limit ∧
      SameMeaning (analyze "proc main()\x7b\x7d" "a.spl" .default).result
        (analyze text "b.spl" .default).result := by
  intro text
  let t (kind : TokenKind) (value : String) (start stop : UInt32) : Token :=
    ⟨kind, value, ⟨⟨start, "a.spl"⟩, ⟨stop, "a.spl"⟩⟩⟩
  let ts := [t .procWord "proc" 0 4, t .identifier "main" 5 9, t .openParen "(" 9 10,
    t .closeParen ")" 10 11, t .openCurly "\x7b" 11 12, t .closeCurly "\x7d" 12 13]
  have htokens : tokenize "proc main()\x7b\x7d" (some "a.spl") =
      .ok (ts ++ [t .eof "EOF" 13 13]) := by
    decide +kernel
  have hspaced : ∀ (c : Char) (gap : List Char) (t : Token) (ts : List Token) (cs : List Char),
      Text.isBlank c = true → Mixed gap → Written ts cs →
        Written (t :: ts) (t.written ++ ([c] ++ gap ++ cs)) := fun c _ _ _ _ hc =>
    .separated (List.cons_ne_nil c []) (by simpa [Blank] using hc)
  have hcomment : ∀ line : List Char, '\n' ∉ line → Mixed ('/' :: '/' :: (line ++ ['\n'])) :=
    fun line hline => .comment (fun c hc heq => hline (heq ▸ hc)) .nil
  have hlast : Written [t .closeCurly "\x7d" 12 13]
      ((t .closeCurly "\x7d" 12 13).written ++ ('/' :: '/' :: (" last".toList ++ ['\n']) ++ [])) :=
    .cons (hcomment _ (by decide)) (fun _ => List.cons_ne_nil _ _)
      (fun hslash => absurd hslash (by decide)) .nil
  have hrelaid : Relaid ts text.toList := by
    refine ⟨_, _, ?_, hcomment " first".toList (by decide), hspaced '\t' [] _ _ _ rfl .nil <|
      hspaced ' ' [] _ _ _ rfl .nil <|
      hspaced ' ' _ _ _ _ rfl (hcomment " none".toList (by decide)) <|
      hspaced ' ' [] _ _ _ rfl .nil <| hspaced '\n' [] _ _ _ rfl .nil hlast⟩
    decide +kernel
  have hlimit : text.utf8ByteSize < Count.limit := by decide +kernel
  have hdropLast : (ts ++ [t .eof "EOF" 13 13]).dropLast = ts := List.dropLast_concat
  rw [← hdropLast] at hrelaid
  have hsame := (analyze_of_relaid htokens hrelaid hlimit).2 "b.spl" .default
  exact ⟨_, htokens, hrelaid, hlimit, hsame.2⟩

end Spl
