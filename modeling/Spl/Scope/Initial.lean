import Spl.Options
import Spl.Scope.Table

/-!
The table that every program starts with: the type `int` and the procedures of the library.
-/

namespace Spl

/-- A procedure of the library. All its parameters are integers; those that are true here are
passed by reference. -/
structure LibraryProcedure where
  name : String
  byReference : List Bool

namespace Library

/-- Reading, writing and the process. -/
def consoleProcedures : List LibraryProcedure :=
  [⟨"printi", [false]⟩, ⟨"printc", [false]⟩, ⟨"readi", [true]⟩, ⟨"readc", [true]⟩, ⟨"exit", []⟩,
    ⟨"time", [true]⟩]

def drawingProcedures : List LibraryProcedure :=
  [⟨"clearAll", [false]⟩, ⟨"setPixel", [false, false, false]⟩,
    ⟨"drawLine", [false, false, false, false, false]⟩,
    ⟨"drawCircle", [false, false, false, false]⟩]

def procedures : Library → List LibraryProcedure
  | standard => consoleProcedures
  | graphics => consoleProcedures ++ drawingProcedures

end Library

namespace SymbolTable

/-- The complaint about a library name that is taken. The library's own names are all different. -/
def libraryClash (name : String) : Diagnostic :=
  ⟨.redeclarationAsProcedure name, .null⟩

/-- Declares a procedure of the library, with a local scope of its own that stays empty. -/
def declareLibrary (t : SymbolTable) (p : LibraryProcedure) : Except Halt SymbolTable :=
  let (t, scope) := t.nest .global
  let formals := p.byReference.map fun byReference => ⟨.int, byReference⟩
  t.declare .global p.name (.procedure ⟨scope, formals⟩) (libraryClash p.name)

def initial (library : Library) : Except Halt SymbolTable := do
  let t ← empty.declare .global "int" (.type .int) (libraryClash "int")
  library.procedures.foldlM declareLibrary t

end SymbolTable

end Spl
