import Spl.Program.Parser
import Spl.Program.Table
import Spl.Program.Typing
import Spl.Token.Lexer

/-!
The analysis of a source text: its tokens, its program, the table of the program, and the types in
all procedure bodies.
-/

namespace Spl

/-- The program that a list of tokens stands for. -/
def parseTokens (tokens : List Token) (file : String) : Except Halt Program :=
  match parse file tokens with
  | .ok program _ => .ok program
  | .error halt _ => .error halt

/-- The program of a source text. -/
def parseSource (source file : String) : Except Halt Program := do
  parseTokens (← tokenize source (some file)) file

/-- Analyses a source text and answers the program with the types of all its nodes, and its table.
Listings of tables go to the output. -/
def analyze (source file : String) (options : Options) :
    Outcome Text.Sink (Program × SymbolTable) :=
  match parseSource source file with
  | .error halt => ⟨.unlimited, .error halt⟩
  | .ok program =>
    (program.buildTable options 0 .unlimited).andThen (fun (_, d) => d.output)
      fun (program, d) table =>
        let checked := program.check table
        ⟨d.output, checked.result.map fun _ => (checked.after, table)⟩

end Spl
