/-!
Outlines show a value with the names of its parts. They are written on one line, for messages, or
one part per line with four blanks of indentation per level, for whole programs.
-/

namespace Spl.Text

/-- What is shown of a value. A `field` stands inside a `record` only. -/
inductive Outline
  | atom (text : String)
  | field (name : String) (value : Outline)
  | record (name : String) (fields : List Outline)
  | tuple (name : String) (parts : List Outline)
  | list (items : List Outline)

namespace Outline

/-- The outline of a value that may be missing, with the names of the two cases. -/
def ofOption (missing present : String) : Option Outline → Outline
  | none => .atom missing
  | some part => .tuple present [part]

mutual

/-- The outline on one line. -/
def inline : Outline → String
  | atom text => text
  | field name value => name ++ ": " ++ value.inline
  | record name fields => name ++ " \x7b " ++ ", ".intercalate (inlineAll fields) ++ " \x7d"
  | tuple name parts => name ++ "(" ++ ", ".intercalate (inlineAll parts) ++ ")"
  | list items => "[" ++ ", ".intercalate (inlineAll items) ++ "]"

def inlineAll : List Outline → List String
  | [] => []
  | o :: os => o.inline :: inlineAll os

end

/-- The indentation of `depth` levels. -/
def margin (depth : Nat) : String :=
  String.ofList (List.replicate (4 * depth) ' ')

mutual

/-- The outline with one part per line, for a place `depth` levels in. -/
def indentedAt (depth : Nat) : Outline → String
  | atom text => text
  | field name value => name ++ ": " ++ indentedAt depth value
  | record name fields => name ++ " \x7b\n" ++ linesAt (depth + 1) fields ++ margin depth ++ "\x7d"
  | tuple name parts => name ++ "(\n" ++ linesAt (depth + 1) parts ++ margin depth ++ ")"
  | list [] => "[]"
  | list (o :: os) => "[\n" ++ linesAt (depth + 1) (o :: os) ++ margin depth ++ "]"

/-- Each part on lines of its own, with a comma after it. -/
def linesAt (depth : Nat) : List Outline → String
  | [] => ""
  | o :: os => margin depth ++ indentedAt depth o ++ ",\n" ++ linesAt depth os

end

def indented (o : Outline) : String := o.indentedAt 0

end Outline

end Spl.Text
