import Spl.Proofs.Parser.Soundness
import Spl.Proofs.Phases
import Spl.Proofs.Token.Lexing
import Spl.Proofs.Typing.Acceptance

/-!
Safety of the front end. On every source, each phase is handed what it needs to
be handed by the phase before: the parser gets literals in their written forms
and one mark of the end, the builder gets nodes without types, and the checker
gets a regular table and bodies without types. So no operation is used in a way
that it does not allow.
-/

namespace Spl

variable {α ν : Type}

/-- The work ends with an answer or with a diagnostic. -/
def Ends (x : Except Halt α) : Prop :=
  (∃ a, x = .ok a) ∨ ∃ d, x = .error (.diagnostic d)

theorem Settles.ends {x : Except Halt α} {Q : α → Prop} (h : Settles x Q) : Ends x := by
  match x, h with
  | .ok a, _ => exact .inl ⟨a, rfl⟩
  | .error (.diagnostic d), _ => exact .inr ⟨d, rfl⟩

/-! ### Reading -/

theorem settles_parseTokens {tokens : List Token} (h : Legible tokens) (file : String) :
    Settles (parseTokens tokens file) Program.Fresh := by
  have hruns := Grammar.runs_program file h
  rw [parseTokens]
  split
  · next p rest hparse => exact Program.fresh_of_parse hparse
  · next halt rest hparse =>
      have hhalt : parse file tokens = .error halt rest := hparse
      rw [Parser.Runs, show Grammar.standard.program file tokens = _ from hhalt] at hruns
      cases halt with
      | diagnostic d => trivial
      | fault fault => exact hruns

/-! ### Diagnoses -/

/-- A pass that answers its diagnostic ends with a diagnostic no more. -/
theorem Outcome.Settles.diagnosed {o : Outcome ν α} {Q : ν → α → Prop} (h : o.Settles Q) :
    o.diagnosed.Settles fun _ _ => True := by
  obtain ⟨x, result⟩ := o
  match result, h with
  | .ok _, _ => trivial
  | .error (.diagnostic _), _ => trivial

theorem Program.settles_diagnose {table : SymbolTable} (ht : table.Regular) {p : Program}
    (hfresh : p.FreshBodies) : (p.diagnose table).Settles fun _ _ => True := by
  apply Outcome.Settles.map
  apply Outcome.Settles.visitAll (R := fun _ _ _ => True) trivial
  intro d ds hd
  have hbody : ∀ q, d.procedure? = some q → ∀ s ∈ q.body, s.Fresh := fun q hq =>
    hfresh q (List.mem_filterMap.mpr ⟨d, hd, hq⟩)
  apply (Declaration.settles_check ht hbody).diagnosed.mono
  exact fun _ _ _ _ _ _ => trivial

/-! ### The front end -/

theorem settles_analyzeTokens {tokens : List Token} (h : Legible tokens) (file : String)
    (options : Options) : (analyzeTokens tokens file options).Settles fun _ _ => True := by
  have hparse := settles_parseTokens h file
  rw [analyzeTokens]
  split
  · next halt hhalt =>
      rw [hhalt] at hparse
      exact Outcome.Settles.error hparse _
  · next p hp =>
      apply Outcome.Settles.andThen
      apply (Program.settles_built options (hparse.of_ok hp) 0 .unlimited).mono
      rintro ⟨built, d⟩ table ⟨hregular, -, hbodies⟩
      have hcheck := Program.settles_check hregular hbodies
      exact Settles.map (Settles.mono hcheck fun _ _ => trivial)

theorem settles_analyze {source : String} (h : source.utf8ByteSize < 2 ^ 32) (file : String)
    (options : Options) : (analyze source file options).Settles fun _ _ => True := by
  have htokenize := settles_tokenize h (some file)
  cases htokens : tokenize source (some file) with
  | ok tokens =>
      rw [analyze_of_tokenize htokens]
      exact settles_analyzeTokens (htokenize.of_ok htokens) file options
  | error halt =>
      rw [htokens] at htokenize
      rw [analyze, parseSource, htokens]
      exact Outcome.Settles.error htokenize _

/-- The front end ends on every source whose offsets fit into positions, be it
with an answer or with a diagnostic. So does each of its phases on what the
phases before it deliver, whether bodies are checked up to the first error or
each for its own error. -/
theorem frontEnd_ends {source : String} (h : source.utf8ByteSize < 2 ^ 32) (file : String)
    (options : Options) :
    Ends (analyze source file options).result ∧
      ∀ origin, Ends (tokenize source origin) ∧
        ∀ tokens, tokenize source origin = .ok tokens →
          Ends (parseTokens tokens file) ∧
          ∀ p, parseTokens tokens file = .ok p → ∀ fresh output,
            let built := p.buildTable options fresh output
            Ends built.result ∧
            ∀ table, built.result = .ok table →
              Ends (built.after.1.check table).result ∧
              Ends (built.after.1.diagnose table).result := by
  refine ⟨(settles_analyze h file options).ends, fun origin => ?_⟩
  have htokenize := settles_tokenize h origin
  refine ⟨htokenize.ends, fun tokens htokens => ?_⟩
  have hparse := settles_parseTokens (htokenize.of_ok htokens) file
  refine ⟨hparse.ends, fun p hp fresh output => ?_⟩
  have hbuild := Program.settles_built options (hparse.of_ok hp) fresh output
  refine ⟨hbuild.ends, fun table htable => ?_⟩
  obtain ⟨hregular, -, hbodies⟩ := hbuild.of_ok htable
  have hcheck := Program.settles_check hregular hbodies
  have hdiagnose := Program.settles_diagnose hregular hbodies
  exact ⟨hcheck.ends, hdiagnose.ends⟩

/-- A source with characters that are several bytes long, in a literal and in a
comment. -/
theorem ends_with_wide_characters : ∃ tokens p table,
    tokenize "proc main() \x7b printi('∀'); \x7d // ü" (some "a.spl") = .ok tokens ∧
    parseTokens tokens "a.spl" = .ok p ∧
    (p.buildTable .default 0 .unlimited).result = .ok table ∧
    Ends ((p.buildTable .default 0 .unlimited).after.1.diagnose table).result := by
  have hlength : "proc main() \x7b printi('∀'); \x7d // ü".utf8ByteSize < 2 ^ 32 := by
    decide +kernel
  have haccepted : (analyze "proc main() \x7b printi('∀'); \x7d // ü" "a.spl"
      .default).result.toOption.isSome = true := by
    decide +kernel
  obtain ⟨after, table, hanalyze⟩ := exists_analyze_eq_ok haccepted
  obtain ⟨tokens, rest, p, hphases, -⟩ := phases_of_analyze hanalyze
  have hparse := parseTokens_eq_ok_iff.mpr ⟨rest, hphases.parse_eq⟩
  have htokens := ((frontEnd_ends hlength "a.spl" .default).2 _).2 tokens hphases.tokenize_eq
  have hbuilt := (htokens.2 p hparse 0 .unlimited).2 table hphases.buildTable_eq
  exact ⟨tokens, p, table, hphases.tokenize_eq, hparse, hphases.buildTable_eq, hbuilt.2⟩

end Spl
