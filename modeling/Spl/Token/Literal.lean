import Spl.Halt
import Spl.Text.Bytes
import Spl.Token

/-!
The integers that literals stand for. Decimal literals are read as signed numbers of 32 bits,
hexadecimal ones spell out 32 bits, and a character stands for its code point.
-/

namespace Spl.Literal

def decimalDigit? (c : Char) : Option Nat :=
  if c.isDigit then some (c.toNat - '0'.toNat) else none

def hexDigit? (c : Char) : Option Nat :=
  if c.isDigit then some (c.toNat - '0'.toNat)
  else if 'a' ≤ c ∧ c ≤ 'f' then some (c.toNat - 'a'.toNat + 10)
  else if 'A' ≤ c ∧ c ≤ 'F' then some (c.toNat - 'A'.toNat + 10)
  else none

/-- The number that `value` and the digits after it stand for. -/
def digitsFrom? (base : Nat) (digit? : Char → Option Nat) : Nat → List Char → Option Nat
  | value, [] => some value
  | value, c :: cs => (digit? c).bind fun d => digitsFrom? base digit? (value * base + d) cs

/-- The number that one or more digits stand for. -/
def digits? (base : Nat) (digit? : Char → Option Nat) : List Char → Option Nat
  | [] => none
  | cs => digitsFrom? base digit? 0 cs

def decimalDigits? : List Char → Option Nat := digits? 10 decimalDigit?

def hexDigits? : List Char → Option Nat := digits? 16 hexDigit?

/-- A decimal number, with or without a sign, if it fits. -/
def decimal? (cs : List Char) : Option Int32 := do
  let value ← match cs with
    | '+' :: cs => (decimalDigits? cs).map Int.ofNat
    | '-' :: cs => (decimalDigits? cs).map fun n => -Int.ofNat n
    | cs => (decimalDigits? cs).map Int.ofNat
  if Int32.minValue.toInt ≤ value ∧ value ≤ Int32.maxValue.toInt then some (Int32.ofInt value)
  else none

/-- The digits of a hexadecimal number, with or without a plus, if they fit. The highest of the 32
bits is the sign. -/
def hexadecimal? (cs : List Char) : Option Int32 := do
  let value ← match cs with
    | '+' :: cs => hexDigits? cs
    | cs => hexDigits? cs
  if value < UInt32.size then some (UInt32.ofNat value).toInt32 else none

/-- The code of a character between its quotes. -/
def character? : List Char → Option Int32
  | ['\\', 'n'] => some (Int32.ofNat '\n'.toNat)
  | c :: _ => some (Int32.ofNat c.toNat)
  | [] => none

def unreadable (t : Token) : Halt :=
  Cause.halt (.numberParseError t.value) t.span.start

/-- The value of an integer literal. -/
def value (t : Token) : Except Halt Int32 :=
  match t.kind with
  | .number => (decimal? t.value.toList).elim (throw (unreadable t)) pure
  | .hexNumber =>
    match Text.dropBytes? 2 t.value.toList with
    | none => throw (.fault .badSlice)
    | some digits => (hexadecimal? digits).elim (throw (unreadable t)) pure
  | .character => (character? t.value.toList).elim (throw (unreadable t)) pure
  | _ =>
    throw (Cause.halt (.unexpectedTokenDetailed t.value "expected an integer literal") t.span.start)

/-- The size of an array, which is not negative. -/
def size (t : Token) : Except Halt UInt32 := do
  let n ← value t
  if 0 ≤ n then return n.toUInt32 else throw (unreadable t)

end Spl.Literal
