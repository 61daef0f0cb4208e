import Spl.Text.Outline
import Spl.Text.Quoted

/-!
Places in source files.
-/

namespace Spl

/-- A byte offset into a file. Offsets are 32 bits wide and wrap beyond that. -/
structure Position where
  offset : UInt32
  file : String
  deriving DecidableEq, Repr

namespace Position

/-- The place of a diagnostic that belongs to no source text. -/
def null : Position := ⟨0, "<null>"⟩

def isNull (p : Position) : Bool := p == null

open Text in
def outline (p : Position) : Outline :=
  .tuple "Position" [.atom (toString p.offset.toNat), .atom (quote p.file)]

end Position

/-- The stretch of a file from `start` up to, and without, `stop`. -/
structure Span where
  start : Position
  stop : Position
  deriving DecidableEq, Repr

open Text in
def Span.outline (s : Span) : Outline :=
  .record "Span" [.field "start" s.start.outline, .field "end" s.stop.outline]

end Spl
