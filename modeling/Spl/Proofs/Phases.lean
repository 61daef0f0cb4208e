import Spl.Analysis
import Spl.Proofs.Yielding

/-!
What a finished analysis went through: all of its phases finished, each on
what the one before it had delivered.
-/

namespace Spl

/-- The phases of an analysis that finishes with a checked program and a table. -/
structure Phases (source file : String) (options : Options) (tokens rest : List Token)
    (p : Program) (table : SymbolTable) : Prop where
  tokenize_eq : tokenize source (some file) = .ok tokens
  parse_eq : parse file tokens = .ok p rest
  buildTable_eq : (p.buildTable options 0 .unlimited).result = .ok table
  check_eq : ((p.buildTable options 0 .unlimited).after.1.check table).result = .ok ()

theorem parseTokens_eq_ok_iff {tokens : List Token} {file : String} {p : Program} :
    parseTokens tokens file = .ok p ↔ ∃ rest, parse file tokens = .ok p rest := by
  rw [parseTokens]
  cases parse file tokens with
  | ok program rest => simp
  | error halt rest => simp

theorem parseSource_eq_ok_iff {source file : String} {p : Program} :
    parseSource source file = .ok p ↔
      ∃ tokens rest, tokenize source (some file) = .ok tokens ∧
        parse file tokens = .ok p rest := by
  rw [parseSource]
  cases tokenize source (some file) with
  | error halt => simp [bind, Except.bind]
  | ok tokens => simp [bind, Except.bind, parseTokens_eq_ok_iff]

/-- The analysis of a source from its tokens on. -/
def analyzeTokens (tokens : List Token) (file : String) (options : Options) :
    Outcome Text.Sink (Program × SymbolTable) :=
  match parseTokens tokens file with
  | .error halt => ⟨.unlimited, .error halt⟩
  | .ok program =>
    (program.buildTable options 0 .unlimited).andThen (fun (_, d) => d.output)
      fun (program, d) table =>
        let checked := program.check table
        ⟨d.output, checked.result.map fun _ => (checked.after, table)⟩

theorem analyze_of_tokenize {source file : String} {tokens : List Token}
    (h : tokenize source (some file) = .ok tokens) (options : Options) :
    analyze source file options = analyzeTokens tokens file options := by
  rw [analyze, parseSource, h]
  rfl

/-- A source of which something is known once it is read can be read. -/
theorem exists_parse_of_map {α : Type} {source file : String} {view : Program → α} {x : α}
    (h : (parseSource source file).toOption.map view = some x) :
    ∃ tokens rest p, tokenize source (some file) = .ok tokens ∧
      parse file tokens = .ok p rest ∧ view p = x := by
  obtain ⟨p, hparse, hview⟩ := exists_ok_of_map h
  obtain ⟨tokens, rest, htokens, hp⟩ := parseSource_eq_ok_iff.mp hparse
  exact ⟨tokens, rest, p, htokens, hp, hview⟩

theorem phases_of_analyze {source file : String} {options : Options} {after : Program}
    {table : SymbolTable} (h : (analyze source file options).result = .ok (after, table)) :
    ∃ tokens rest p, Phases source file options tokens rest p table ∧
      after = ((p.buildTable options 0 .unlimited).after.1.check table).after := by
  rw [analyze] at h
  split at h
  · cases h
  · next p hparse =>
      obtain ⟨tokens, rest, htokens, hp⟩ := parseSource_eq_ok_iff.mp hparse
      obtain ⟨table', htable, hchecked⟩ := (Outcome.result_andThen_eq_ok_iff _ _ _ _).mp h
      dsimp only at hchecked
      cases hcheck : ((p.buildTable options 0 .unlimited).after.1.check table').result with
      | error halt =>
          rw [hcheck] at hchecked
          cases hchecked
      | ok _ =>
          rw [hcheck] at hchecked
          cases hchecked
          exact ⟨tokens, rest, p, ⟨htokens, hp, htable, hcheck⟩, rfl⟩

/-- An analysis that does not finish stops in one of its phases. -/
inductive Stops (source file : String) (options : Options) (halt : Halt) : Prop
  | tokens (h : tokenize source (some file) = .error halt)
  | parse {tokens rest : List Token} (tokenize_eq : tokenize source (some file) = .ok tokens)
      (h : parse file tokens = .error halt rest)
  | tables {tokens rest : List Token} {p : Program}
      (tokenize_eq : tokenize source (some file) = .ok tokens)
      (parse_eq : parse file tokens = .ok p rest)
      (h : (p.buildTable options 0 .unlimited).result = .error halt)
  | semant {tokens rest : List Token} {p : Program} {table : SymbolTable}
      (tokenize_eq : tokenize source (some file) = .ok tokens)
      (parse_eq : parse file tokens = .ok p rest)
      (buildTable_eq : (p.buildTable options 0 .unlimited).result = .ok table)
      (h : ((p.buildTable options 0 .unlimited).after.1.check table).result = .error halt)

theorem stops_of_analyze {source file : String} {options : Options} {halt : Halt}
    (h : (analyze source file options).result = .error halt) : Stops source file options halt := by
  rw [analyze, parseSource] at h
  cases htokens : tokenize source (some file) with
  | error stop =>
      rw [htokens] at h
      cases h
      exact .tokens htokens
  | ok tokens =>
      rw [htokens] at h
      cases hparse : parse file tokens with
      | error stop rest =>
          simp only [bind, Except.bind, parseTokens, hparse] at h
          cases h
          exact .parse htokens hparse
      | ok p rest =>
          simp only [bind, Except.bind, parseTokens, hparse] at h
          cases hbuild : (p.buildTable options 0 .unlimited).result with
          | error stop =>
              rw [Outcome.andThen, hbuild] at h
              cases h
              exact .tables htokens hparse hbuild
          | ok table =>
              rw [Outcome.andThen, hbuild] at h
              dsimp only at h
              cases hcheck : ((p.buildTable options 0 .unlimited).after.1.check table).result with
              | ok _ =>
                  rw [hcheck] at h
                  cases h
              | error stop =>
                  rw [hcheck] at h
                  cases h
                  exact .semant htokens hparse hbuild hcheck

/-- An analysis that finishes at all finishes with a program and a table. -/
theorem exists_analyze_eq_ok {source file : String} {options : Options}
    (h : (analyze source file options).result.toOption.isSome = true) :
    ∃ after table, (analyze source file options).result = .ok (after, table) := by
  obtain ⟨found, hresult⟩ := exists_ok_of_isSome h
  exact ⟨found.1, found.2, hresult⟩

/-- An analysis of which something is known finishes with a program and a table
of which it holds. -/
theorem exists_analyze_of_map {α : Type} {source file : String} {options : Options}
    {view : Program × SymbolTable → α} {x : α}
    (h : (analyze source file options).result.toOption.map view = some x) :
    ∃ after table, (analyze source file options).result = .ok (after, table) ∧
      view (after, table) = x := by
  obtain ⟨found, hresult, hview⟩ := exists_ok_of_map h
  exact ⟨found.1, found.2, hresult, hview⟩

end Spl
