import Spl.Text.Bytes

/-!
The line of a text that holds a given byte offset. The end of the text belongs to its last line.
-/

namespace Spl.Text

/-- The lines of a text, each with its newline; the last one may lack it. -/
def lines : List Char → List (List Char)
  | [] => []
  | c :: cs =>
    if c = '\n' then [c] :: lines cs
    else
      match lines cs with
      | [] => [[c]]
      | l :: ls => (c :: l) :: ls

@[simp] theorem flatten_lines (cs : List Char) : (lines cs).flatten = cs := by
  fun_induction lines cs <;> simp_all

/-- A place within a line: the line's number, counted from 1, its text, and the byte offset
in it. -/
structure LinePlace where
  number : Nat
  text : List Char
  offset : Nat
  deriving DecidableEq, Repr

/-- The place `n` bytes into the given lines, the first of which has the given number. -/
def placeIn (number n : Nat) : List (List Char) → Option LinePlace
  | [] => none
  | l :: ls =>
    if n < byteLength l then some ⟨number, l, n⟩
    else if ls.isEmpty then
      if n = byteLength l then some ⟨number, l, byteLength (l.takeWhile (· ≠ '\n'))⟩ else none
    else placeIn (number + 1) (n - byteLength l) ls

def lineAt (source : String) (offset : Nat) : Option LinePlace :=
  placeIn 1 offset (lines source.toList)

end Spl.Text
