import Spl.Command.Run
import Spl.Proofs.Phases
import Spl.Proofs.Program.Blocks
import Spl.Proofs.Separation

/-!
The command and the analysis. Both go through the same phases, one with a stop
behind each of them and with listings. Where the command stops with an error, it
does so for every later stop; and behind the last phase it stops as the analysis
does.
-/

namespace Spl

open Outcome Text

/-! ### Bodies -/

/-- A declaration with nothing in its body. -/
def Declaration.withoutBody : Declaration → Declaration
  | type t => type t
  | procedure q => procedure { q with body := [] }

/-- A program with nothing in the bodies of its procedures. -/
def Program.withoutBodies (p : Program) : Program :=
  ⟨p.declarations.map Declaration.withoutBody, p.span⟩

/-- Entering a declaration does the same to the table without its body. -/
theorem Declaration.declare_withoutBody (options : Options) (declaration : Declaration)
    (d : Draft) :
    (declaration.withoutBody.declare options d).after.2 = (declaration.declare options d).after.2 ∧
      (declaration.withoutBody.declare options d).result =
        (declaration.declare options d).result := by
  cases declaration with
  | type t => exact ⟨rfl, rfl⟩
  | procedure q =>
      obtain ⟨q', d', result, hbody⟩ := Declaration.exists_declare_of_body options q d
      have hown : (procedure q).declare options d = _ := hbody q.body
      rw [withoutBody, hbody [], hown]
      exact ⟨rfl, rfl⟩

theorem Outcome.threadAll_map {ν σ α : Type} {visit : ν → σ → Outcome (ν × σ) α} {f : ν → ν}
    (h : ∀ x s, (visit (f x) s).after.2 = (visit x s).after.2 ∧
      (visit (f x) s).result = (visit x s).result) (xs : List ν) (s : σ) :
    (threadAll visit (xs.map f) s).after.2 = (threadAll visit xs s).after.2 ∧
      (threadAll visit (xs.map f) s).result = (threadAll visit xs s).result := by
  induction xs generalizing s with
  | nil => exact ⟨rfl, rfl⟩
  | cons x xs ih =>
      obtain ⟨hstate, hresult⟩ := h x s
      rw [List.map_cons, threadAll, threadAll]
      generalize visit (f x) s = o', visit x s = o at hstate hresult
      obtain ⟨⟨y', s'⟩, result'⟩ := o'
      obtain ⟨⟨y, s₁⟩, result⟩ := o
      obtain rfl : s' = s₁ := hstate
      obtain rfl : result' = result := hresult
      cases result' with
      | error halt => exact ⟨rfl, rfl⟩
      | ok a =>
          obtain ⟨hrest, hresults⟩ := ih s'
          simp only [andThen_ok, after_map, result_map]
          exact ⟨hrest, by rw [hresults]⟩

/-- Whether the table of a program can be built has nothing to do with bodies. -/
theorem Program.result_buildTable_withoutBodies (p : Program) (options : Options) (fresh : Nat)
    (output : Sink) :
    (p.withoutBodies.buildTable options fresh output).result =
      (p.buildTable options fresh output).result := by
  obtain ⟨t, ht, -⟩ := SymbolTable.exists_initial options.library
  obtain ⟨hstate, hresult⟩ := threadAll_map (Declaration.declare_withoutBody options)
    p.declarations ⟨t, fresh, output⟩
  rw [buildTable, buildTable, ht]
  dsimp only [withoutBodies]
  generalize threadAll (Declaration.declare options) (p.declarations.map Declaration.withoutBody)
    _ = o', threadAll (Declaration.declare options) p.declarations _ = o at hstate hresult
  obtain ⟨⟨ds', d'⟩, result'⟩ := o'
  obtain ⟨⟨ds, d⟩, result⟩ := o
  obtain rfl : d' = d := hstate
  obtain rfl : result' = result := hresult
  cases result' <;> rfl

/-! ### Stops -/

/-- The number of phases that are finished before work stops with this one. -/
def Phase.stop : Phase → Nat
  | .tokens => 0
  | .parse => 1
  | .tables => 2
  | .semant | .all => 3

/-- What comes of the first phases of a source: an error, or nothing if all of
them finish. -/
def verdict (source file : String) (library : Library) : Nat → Except Halt Unit
  | 0 => (tokenize source (some file)).map fun _ => ()
  | 1 => (parseSource source file).map fun _ => ()
  | 2 => do
    let p ← parseSource source file
    (p.buildTable ⟨.all, library⟩ 0 .unlimited).result.map fun _ => ()
  | _ + 3 => (analyze source file ⟨.all, library⟩).result.map fun _ => ()

variable {source file : String} {library : Library}

theorem parseSource_of_tokenize_error {halt : Halt}
    (h : tokenize source (some file) = .error halt) :
    parseSource source file = .error halt := by
  rw [parseSource, h]
  rfl

theorem parseSource_of_tokenize {tokens : List Token}
    (h : tokenize source (some file) = .ok tokens) :
    parseSource source file = parseTokens tokens file := by
  rw [parseSource, h]
  rfl

theorem fresh_of_parseSource {p : Program} (h : parseSource source file = .ok p) : p.Fresh := by
  obtain ⟨tokens, rest, -, hparse⟩ := parseSource_eq_ok_iff.mp h
  exact Program.fresh_of_parse hparse

/-- The analysis has the same result in every phase. -/
theorem result_analyze_eq (source file : String) (library : Library) (phase : Phase) :
    (analyze source file ⟨phase, library⟩).result =
      (analyze source file ⟨.all, library⟩).result := by
  rw [analyze, analyze]
  cases hparse : parseSource source file with
  | error halt => rfl
  | ok p =>
      obtain ⟨hresult, hafter⟩ := Program.buildTable_alike (fresh_of_parseSource hparse) library 0
        Sink.endless_unlimited phase
      dsimp only
      generalize p.buildTable ⟨phase, library⟩ 0 .unlimited = o,
        p.buildTable ⟨.all, library⟩ 0 .unlimited = o' at hresult hafter
      obtain ⟨⟨built, d⟩, result⟩ := o
      obtain ⟨⟨built', d'⟩, result'⟩ := o'
      obtain rfl : result = result' := hresult
      obtain rfl : built = built' := hafter
      cases result <;> rfl

/-- Behind the last phase, the command ends as the analysis does. -/
theorem result_run_of_stop {phase : Phase} (hphase : phase.stop = 3) :
    (Command.run source file ⟨phase, library⟩).result =
      (analyze source file ⟨phase, library⟩).result.map fun _ => () := by
  have htokens : phase ≠ .tokens := by rintro rfl; cases hphase
  have hparse : phase ≠ .parse := by rintro rfl; cases hphase
  have htables : phase ≠ .tables := by rintro rfl; cases hphase
  rw [Command.run, analyze]
  cases hread : tokenize source (some file) with
  | error halt =>
      rw [parseSource_of_tokenize_error hread]
      rfl
  | ok tokens =>
      rw [parseSource_of_tokenize hread]
      dsimp only
      rw [if_neg htokens]
      cases parseTokens tokens file with
      | error halt => rfl
      | ok p =>
          dsimp only
          rw [if_neg hparse]
          generalize p.buildTable ⟨phase, library⟩ 0 .unlimited = o
          obtain ⟨⟨built, d⟩, result⟩ := o
          cases result with
          | error halt => rfl
          | ok table =>
              simp only [andThen_ok, if_neg htables]
              cases (built.check table).result <;> rfl

/-- The command ends as the phases up to its stop do. -/
theorem result_run_eq (source file : String) (library : Library) (phase : Phase) :
    (Command.run source file ⟨phase, library⟩).result = verdict source file library phase.stop := by
  by_cases hlast : phase.stop = 3
  · rw [result_run_of_stop hlast, result_analyze_eq, hlast, verdict]
  rw [Command.run]
  cases hread : tokenize source (some file) with
  | error halt =>
      have hsource := parseSource_of_tokenize_error hread
      cases phase with
      | tokens => rw [Phase.stop, verdict, hread]; rfl
      | parse | tables => rw [Phase.stop, verdict, hsource]; rfl
      | semant | all => exact absurd rfl hlast
  | ok tokens =>
      have hsource := parseSource_of_tokenize hread
      cases phase with
      | tokens => rw [Phase.stop, verdict, hread]; rfl
      | parse =>
          rw [Phase.stop, verdict, hsource]
          simp only [reduceCtorEq, if_false, if_true]
          cases parseTokens tokens file <;> rfl
      | semant | all => exact absurd rfl hlast
      | tables =>
          rw [Phase.stop, verdict, hsource]
          simp only [reduceCtorEq, if_false, if_true]
          cases hparse : parseTokens tokens file with
          | error halt => rfl
          | ok p =>
              obtain ⟨hresult, -⟩ := Program.buildTable_alike
                (fresh_of_parseSource (hsource.trans hparse)) library 0 Sink.endless_unlimited
                .tables
              dsimp only [bind, Except.bind]
              rw [← hresult]
              generalize p.buildTable ⟨.tables, library⟩ 0 .unlimited = o
              obtain ⟨⟨built, d⟩, result⟩ := o
              cases result <;> rfl

/-- Each phase keeps the errors of those before it. -/
theorem verdict_succ {n : Nat} {halt : Halt} (h : verdict source file library n = .error halt) :
    verdict source file library (n + 1) = .error halt := by
  match n with
  | 0 =>
      cases hread : tokenize source (some file) with
      | ok tokens => simp [verdict, hread, Except.map] at h
      | error stop =>
          obtain rfl : stop = halt := by simpa [verdict, hread, Except.map] using h
          simp [verdict, parseSource_of_tokenize_error hread, Except.map]
  | 1 =>
      cases hparse : parseSource source file with
      | ok p => simp [verdict, hparse, Except.map] at h
      | error stop =>
          obtain rfl : stop = halt := by simpa [verdict, hparse, Except.map] using h
          simp [verdict, hparse, bind, Except.bind]
  | 2 =>
      cases hparse : parseSource source file with
      | error stop =>
          obtain rfl : stop = halt := by simpa [verdict, hparse, bind, Except.bind] using h
          simp [verdict, analyze, hparse, Except.map]
      | ok p =>
          simp only [verdict, analyze, hparse, bind, Except.bind] at h ⊢
          generalize p.buildTable ⟨.all, library⟩ 0 .unlimited = o at h ⊢
          obtain ⟨⟨built, d⟩, result⟩ := o
          cases result with
          | error stop => exact h
          | ok table => cases h
  | n + 3 => exact h

/-- An error stays, however many more phases there are. -/
theorem verdict_of_le {m n : Nat} (hle : m ≤ n) {halt : Halt}
    (h : verdict source file library m = .error halt) :
    verdict source file library n = .error halt := by
  induction hle with
  | refl => exact h
  | step _ ih => exact verdict_succ ih

/-- There are no tokens, or they make no program, or its declarations make no
table. Bodies do not count. -/
inductive HasNoTable (source file : String) (library : Library) : Prop
  | tokens {halt : Halt} (h : tokenize source (some file) = .error halt)
  | program {tokens : List Token} {halt : Halt} (hread : tokenize source (some file) = .ok tokens)
      (h : parseTokens tokens file = .error halt)
  | table {tokens : List Token} {p : Program} {halt : Halt}
      (hread : tokenize source (some file) = .ok tokens) (hparse : parseTokens tokens file = .ok p)
      (h : (p.withoutBodies.buildTable ⟨.tables, library⟩ 0 .unlimited).result = .error halt)

/-- A source without a table is one on which the first three phases fail. -/
theorem hasNoTable_iff : HasNoTable source file library ↔
    (Command.run source file ⟨.tables, library⟩).result ≠ .ok () := by
  rw [Command.run]
  cases hread : tokenize source (some file) with
  | error halt => simpa using HasNoTable.tokens hread
  | ok tokens =>
      simp only [reduceCtorEq, if_false, if_true]
      cases hparse : parseTokens tokens file with
      | error halt => simpa using HasNoTable.program hread hparse
      | ok p =>
          have hbodies := p.result_buildTable_withoutBodies ⟨.tables, library⟩ 0 .unlimited
          have hiff : HasNoTable source file library ↔ ∃ halt,
              (p.buildTable ⟨.tables, library⟩ 0 .unlimited).result = .error halt := by
            constructor
            · intro h
              cases h with
              | tokens h => rw [hread] at h; cases h
              | program hread' h =>
                  obtain rfl := Except.ok.inj (hread.symm.trans hread')
                  rw [hparse] at h
                  cases h
              | table hread' hparse' h =>
                  obtain rfl := Except.ok.inj (hread.symm.trans hread')
                  obtain rfl := Except.ok.inj (hparse.symm.trans hparse')
                  exact ⟨_, hbodies ▸ h⟩
            · rintro ⟨halt, h⟩
              exact .table hread hparse (hbodies.trans h)
          rw [hiff]
          dsimp only
          generalize p.buildTable ⟨.tables, library⟩ 0 .unlimited = o
          obtain ⟨⟨built, d⟩, result⟩ := o
          cases result <;> simp

/-! ### The command -/

namespace Command

/-- The command succeeds on a file that could be read if the work on it ends without an error. -/
theorem code_analyse_eq_zero_iff {path source : String} {options : Options} :
    (analyse path options (.ok source)).code = 0 ↔
      (run source (fileName path) options).result = .ok () := by
  rw [analyse]
  generalize run source (fileName path) options = o
  obtain ⟨output, result⟩ := o
  cases result with
  | ok _ => simp
  | error halt =>
      cases halt with
      | fault f => simp [Ending.fault]
      | diagnostic d =>
          dsimp only
          cases d.report source path <;> simp [Ending.fault]

/-- The flag for a phase. The last phase has none. -/
def phaseFlags : Phase → List String
  | .tokens => ["--tokens"]
  | .parse => ["--parse"]
  | .tables => ["--tables"]
  | .semant => ["--semant"]
  | .all => []

/-- The option for a library, which does not have to be there. -/
def libraryFlags : Option Library → List String
  | none => []
  | some .standard => ["--library", "standard"]
  | some .graphics => ["--library", "graphics"]

/-- What is relied on in a reader of arguments: in front of the path of a file, it takes
the flag for a phase or none, and a library or none, which then is `graphics`. -/
def ReadsFlags (readArguments : List String → Request) : Prop :=
  ∀ (phase : Phase) (library : Option Library) (path : String), isPlain path = true → path ≠ "" →
    readArguments (phaseFlags phase ++ libraryFlags library ++ [path]) =
      .analyse (.upTo phase (library.getD .graphics) path)

theorem readFrom_path {path : String} (hplain : isPlain path = true) (hpath : path ≠ "")
    {g : Given} (hg : g.input = none) :
    Given.readFrom [path] g = { g with input := some path }.request := by
  have hdashes : path ≠ "--" := by
    rintro rfl
    exact absurd hplain (by decide)
  have hinput : g.withInput? path = some { g with input := some path } := by
    simp [Given.withInput?, hpath, hg]
  rw [Given.readFrom, if_pos hplain, hinput]
  · rfl
  · exact hdashes
  · exact fun _ _ _ h => nomatch h

theorem readFrom_libraryFlags (library : Option Library) (rest : List String) {g : Given}
    (hg : g.library = none) :
    Given.readFrom (libraryFlags library ++ rest) g = Given.readFrom rest { g with library } := by
  obtain ⟨phases, _, input⟩ := g
  obtain rfl := hg
  rcases library with _ | _ | _ <;> rfl

theorem readFrom_phaseFlags (phase : Phase) (rest : List String) :
    Given.readFrom (phaseFlags phase ++ rest) .nothing =
      Given.readFrom rest { Given.nothing with phases := [phase].filter (· ≠ .all) } := by
  cases phase <;> rfl

theorem readsFlags_ofArguments : ReadsFlags Request.ofArguments := by
  intro phase library path hplain hpath
  rw [Request.ofArguments, List.append_assoc, readFrom_phaseFlags, readFrom_libraryFlags _ _ rfl,
    readFrom_path hplain hpath rfl]
  cases phase <;> rfl

/-- The exit code tells whether the analysis succeeds, behind the last phase, and
whether there is a table, in front of it. -/
theorem code_answer_iff {source file : String} {library : Library} {a : Arguments}
    {readFile : String → Except ReadFailure String} (hread : readFile a.input = .ok source)
    (hfile : fileName a.input = file) (hlibrary : a.library = library) :
    let code := ((Request.analyse a).answer readFile).code
    (a.phase = .semant ∨ a.phase = .all →
      (code = 0 ↔ ∃ found, (analyze source file a.options).result = .ok found)) ∧
    (a.phase = .tables → (code ≠ 0 ↔ HasNoTable source file library)) := by
  subst hfile hlibrary
  have hcode : ((Request.analyse a).answer readFile).code = 0 ↔
      (run source (fileName a.input) a.options).result = .ok () := by
    rw [Request.answer, hread, code_analyse_eq_zero_iff]
  refine ⟨fun hphase => ?_, fun hphase => ?_⟩
  · have hlast : a.phase.stop = 3 := by
      rcases hphase with hphase | hphase <;> rw [hphase] <;> rfl
    rw [hcode, Arguments.options, result_run_of_stop hlast]
    cases (analyze source (fileName a.input) ⟨a.phase, a.library⟩).result <;> simp [Except.map]
  · rw [ne_eq, hcode, hasNoTable_iff, Arguments.options, hphase]

end Command

/-- What the command reports for a source and what the analysis of it comes to.
An error for one stop is the error for every later stop, and a success for one
stop is one for every earlier stop. Behind the last phase, the command ends as
the analysis does, which has the same result in every phase. So with `--semant`,
or without a flag, the exit code is zero if the analysis succeeds; and with
`--tables` it is not zero if there are no tokens, no program or no table, where
bodies make no difference. This holds of any reader of arguments, which need not
do more than to take flags as they stand, as the one from here does. -/
theorem run_agrees_with_analyze (source file : String) (library : Library) :
    (∀ a b : Phase, a.stop ≤ b.stop → ∀ halt,
      (Command.run source file ⟨a, library⟩).result = .error halt →
        (Command.run source file ⟨b, library⟩).result = .error halt) ∧
    (∀ a b : Phase, a.stop ≤ b.stop →
      (Command.run source file ⟨b, library⟩).result = .ok () →
        (Command.run source file ⟨a, library⟩).result = .ok ()) ∧
    (∀ phase : Phase, phase = .semant ∨ phase = .all →
      (Command.run source file ⟨phase, library⟩).result =
        (analyze source file ⟨phase, library⟩).result.map fun _ => ()) ∧
    (∀ a b : Phase, (analyze source file ⟨a, library⟩).result =
      (analyze source file ⟨b, library⟩).result) ∧
    (∀ (readArguments : List String → Command.Request)
      (readFile : String → Except Command.ReadFailure String),
      (∀ (arguments : List String) (a : Command.Arguments),
        readArguments arguments = .analyse a → readFile a.input = .ok source →
        Command.fileName a.input = file → a.library = library →
        let code := (Command.perform readArguments readFile arguments).code
        (a.phase = .semant ∨ a.phase = .all →
          (code = 0 ↔ ∃ found, (analyze source file a.options).result = .ok found)) ∧
        (a.phase = .tables → (code ≠ 0 ↔ HasNoTable source file library))) ∧
      (Command.ReadsFlags readArguments →
        ∀ (path : String) (phase : Phase) (given : Option Library),
        Command.isPlain path = true → path ≠ "" → readFile path = .ok source →
        Command.fileName path = file → given.getD .graphics = library →
        let code := (Command.perform readArguments readFile
          (Command.phaseFlags phase ++ Command.libraryFlags given ++ [path])).code
        (phase = .semant ∨ phase = .all →
          (code = 0 ↔ ∃ found, (analyze source file ⟨phase, library⟩).result = .ok found)) ∧
        (phase = .tables → (code ≠ 0 ↔ HasNoTable source file library)))) ∧
    Command.ReadsFlags Command.Request.ofArguments := by
  have hkept : ∀ a b : Phase, a.stop ≤ b.stop → ∀ halt,
      (Command.run source file ⟨a, library⟩).result = .error halt →
        (Command.run source file ⟨b, library⟩).result = .error halt := by
    intro a b hle halt h
    rw [result_run_eq] at h ⊢
    exact verdict_of_le hle h
  refine ⟨hkept, fun a b hle h => ?_, ?_, fun a b => ?_, fun readArguments readFile => ⟨?_, ?_⟩,
    Command.readsFlags_ofArguments⟩
  · cases hresult : (Command.run source file ⟨a, library⟩).result with
    | ok _ => rfl
    | error halt =>
        rw [hkept a b hle halt hresult] at h
        cases h
  · rintro phase (rfl | rfl)
    · exact result_run_of_stop rfl
    · exact result_run_of_stop rfl
  · rw [result_analyze_eq source file library a, result_analyze_eq source file library b]
  · intro arguments a hrequest hread hfile hlibrary
    rw [Command.perform, hrequest]
    exact Command.code_answer_iff hread hfile hlibrary
  · intro hflags path phase given hplain hpath hread hfile hlibrary
    subst hlibrary
    rw [Command.perform, hflags phase given path hplain hpath]
    have hcode := Command.code_answer_iff (a := .upTo phase (given.getD .graphics) path)
      hread hfile rfl
    have hoptions := Command.Arguments.options_upTo phase (given.getD .graphics) path
    have hphase := congrArg Options.phase hoptions
    rwa [hoptions, show Command.Arguments.phase _ = phase from hphase] at hcode

/-- A program with a table and a mistake in a body. The command succeeds with
`--tables` and fails with `--semant`. -/
theorem mistake_behind_tables :
    let source := "proc main() \x7b x := 1; \x7d"
    let file := Command.fileName "a.spl"
    let readFile : String → Except Command.ReadFailure String := fun _ => .ok source
    let code (arguments : List String) := (Command.execute readFile arguments).code
    (analyze source file ⟨.semant, .graphics⟩).result.toOption = none ∧
    (Command.run source file ⟨.parse, .graphics⟩).result = .ok () ∧
    code ["--tables", "a.spl"] = 0 ∧ code ["--semant", "a.spl"] ≠ 0 := by
  intro source file readFile code
  obtain ⟨-, hearlier, -, -, hcommand, hflags⟩ := run_agrees_with_analyze source file .graphics
  have hfails : (analyze source file ⟨.semant, .graphics⟩).result.toOption.isNone = true := by
    decide +kernel
  have htables : (Command.run source file ⟨.tables, .graphics⟩).result = .ok () := by
    have hok : (Command.run source file ⟨.tables, .graphics⟩).result.toOption = some () := by
      decide +kernel
    cases hresult : (Command.run source file ⟨.tables, .graphics⟩).result with
    | ok _ => rfl
    | error halt =>
        rw [hresult] at hok
        cases hok
  have hcode := fun phase => (hcommand Command.Request.ofArguments readFile).2 hflags "a.spl" phase
    none (by decide) (by decide) rfl rfl rfl
  refine ⟨Option.isNone_iff_eq_none.mp hfails, hearlier .parse .tables (by decide) htables, ?_, ?_⟩
  · have hiff := (hcode .tables).2 rfl
    by_contra hzero
    exact (hasNoTable_iff.mp (hiff.mp hzero)) htables
  · have hiff : code ["--semant", "a.spl"] = 0 ↔ _ := (hcode .semant).1 (.inl rfl)
    rw [ne_eq, hiff]
    rintro ⟨found, hfound⟩
    rw [hfound] at hfails
    cases hfails

end Spl
