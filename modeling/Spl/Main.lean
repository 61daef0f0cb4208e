import Spl.Command.Run

/-!
The command.
-/

namespace Spl.Command

def ReadFailure.ofSystem : IO.Error → ReadFailure
  | .noFileOrDirectory .. => .missing
  | .inappropriateType _ code _ => if code = 21 then .directory else .notDirectory
  | .invalidArgument _ 36 _ => .nameTooLong
  | .permissionDenied .. => .other "Permission denied (os error 13)"
  | failure => .other (toString failure)

def readFile (path : String) : IO (Except ReadFailure String) := do
  try
    return textOf (← IO.FS.readBinFile path)
  catch failure => return .error (.ofSystem failure)

end Spl.Command

open Spl.Command in
def main (arguments : List String) : IO UInt32 := do
  let contents ← match Request.ofArguments arguments with
    | .analyse a => readFile a.input
    | .exit .. => pure (.error .missing)
  let ending := execute (fun _ => contents) arguments
  (← IO.getStdout).write ending.output
  IO.eprint ending.errors
  return ending.code
