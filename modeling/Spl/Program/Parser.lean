import Spl.Declaration.Parser
import Spl.Program

/-!
Reading programs.
-/

namespace Spl

open Spl.Parser

/-- Reads declarations up to the end of the tokens. The program spans its file up to there. -/
def Grammar.program (g : Grammar) (file : String) : Parser Program := do
  let declarations ← collectWhile (· != .eof) g.declaration
  return ⟨declarations, ⟨⟨0, file⟩, ← position⟩⟩

/-- Reads a program of the language. -/
def parse (file : String) : Parser Program :=
  Grammar.standard.program file

end Spl
