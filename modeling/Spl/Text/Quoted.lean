import Spl.Text.Combining
import Spl.Text.Printable

/-!
Quoted text, as messages and outlines show names and token values. A character that would not be
seen, or would merge with its neighbour, is written by its code point.
-/

namespace Spl.Text

/-- The code point of `c` in lower-case hexadecimal, in braces after a backslash and a `u`. -/
def codePoint (c : Char) : String :=
  "\\u\x7b" ++ String.ofList (Nat.toDigits 16 c.toNat) ++ "\x7d"

/-- One character between the quotes. The apostrophe stands for itself. -/
def quoteChar : Char → String
  | '\x00' => "\\0"
  | '\t' => "\\t"
  | '\n' => "\\n"
  | '\r' => "\\r"
  | '"' => "\\\""
  | '\\' => "\\\\"
  | c => if isCombining c || !isPrintable c then codePoint c else c.toString

def quote (s : String) : String :=
  "\"" ++ s.foldl (fun quoted c => quoted ++ quoteChar c) "" ++ "\""

end Spl.Text
