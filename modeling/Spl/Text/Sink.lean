/-!
A place for written text. A sink takes bytes in the order in which they are written; one with
limited room takes what fits and fails on the rest.
-/

namespace Spl.Text

structure Sink where
  written : List UInt8
  /-- The number of bytes that still fit, if there is a limit. -/
  room : Option Nat
  /-- What a failure says. -/
  reason : String
  flushFails : Bool
  deriving DecidableEq, Repr

namespace Sink

/-- A sink that takes everything. -/
def unlimited : Sink := ⟨[], none, "", false⟩

/-- Takes as many of the bytes as fit; the answer tells whether all did. -/
def writeBytes (s : Sink) (bytes : List UInt8) : Sink × Bool :=
  match s.room with
  | none => ({ s with written := s.written ++ bytes }, true)
  | some room =>
    ({ s with written := s.written ++ bytes.take room, room := some (room - bytes.length) },
      bytes.length ≤ room)

def write (s : Sink) (text : String) : Sink × Bool :=
  s.writeBytes text.toUTF8.toList

/-- Writes to a sink whose failures nobody looks at. -/
def put (s : Sink) (text : String) : Sink := (s.write text).1

def bytes (s : Sink) : ByteArray := ⟨s.written.toArray⟩

/-- What was written, as a text. A limit can fall inside the last character, and the replacement
character stands for what fits of it; no character has more than three bytes before its last. -/
def text (s : Sink) : String :=
  let whole (missing : Nat) : Option String :=
    String.fromUTF8? ⟨(s.written.take (s.written.length - missing)).toArray⟩
  match whole 0 with
  | some text => text
  | none => (([1, 2, 3].findSome? whole).getD "").push '\ufffd'

end Sink

end Spl.Text
