import Spl.Declaration

/-!
Whole programs.
-/

namespace Spl

structure Program where
  declarations : List Declaration
  span : Span

/-- The procedures of a program in the order of their declarations. -/
def Program.procedures (p : Program) : List Procedure :=
  p.declarations.filterMap Declaration.procedure?

end Spl
