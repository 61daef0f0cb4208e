import Spl.Diagnostic
import Spl.Text.Blank
import Spl.Text.Line

/-!
Reports: a diagnostic for the author of the source, with the line it is about and a mark below the
place in it.
-/

namespace Spl.Diagnostic

open Text

/-- A text filled up on the left with `fill` to at least `width` characters. -/
def padLeft (fill : Char) (width : Nat) (text : String) : String :=
  String.ofList (List.replicate (width - text.length) fill) ++ text

def isIndentation (c : Char) : Bool := c == ' ' || c == '\t'

/-- The line of a place without its indentation, and a mark below the place. -/
def excerpt (place : LinePlace) : String :=
  let number := toString place.number
  let width := number.length + 2
  let indentation := place.text.takeWhile isIndentation
  let text := trimBlanks (place.text.dropWhile isIndentation)
  let column := place.offset - indentation.length
  padLeft ' ' width "|" ++ "\n" ++ number ++ " | " ++ String.ofList text ++ "\n"
    ++ padLeft ' ' width "|" ++ " " ++ padLeft '-' (column + 1) "^" ++ "\n"

/-- The report of a diagnostic about a source that was read from `path`. A diagnostic without a
place in the source has no excerpt. -/
def report (d : Diagnostic) (source path : String) : Except Fault String := do
  let sentence := (← d.cause.tip).getD d.cause.message
  let shown :=
    if d.position.isNull then ""
    else ((lineAt source d.position.offset.toNat).map excerpt).getD ""
  return "Error: " ++ d.cause.name ++ " (" ++ sentence ++ ")\n-> " ++ path ++ "\n" ++ shown

end Spl.Diagnostic
