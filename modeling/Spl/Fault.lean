import Spl.Ty

/-!
Faults: uses that the called operation does not allow. On what the earlier phases of an analysis
deliver none arises.
-/

namespace Spl

inductive Fault
  /-- A token was asked for in a list that never had one. -/
  | noToken
  /-- A text was cut past its end or inside a character. -/
  | badSlice
  /-- A count or an offset grew beyond its 64 bits. -/
  | countTooLarge
  /-- A scope was named that the table does not have. -/
  | unknownScope
  /-- The scopes around a scope do not end. -/
  | endlessScope
  /-- A node's type was written for a second time. -/
  | annotatedTwice (was now : Ty)
  /-- A reader went on without taking a token. -/
  | noProgress
  deriving DecidableEq, Repr

open Text in
/-- What a fault says of itself; only the second writing of a type does. -/
def Fault.message? : Fault → Option String
  | annotatedTwice was now =>
    some ("data type annotated twice (was " ++ (Outline.tuple "Some" [was.outline]).inline
      ++ ", now " ++ now.outline.inline ++ ")")
  | _ => none

end Spl
