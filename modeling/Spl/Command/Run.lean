import Spl.Analysis
import Spl.Command.Files
import Spl.Command.Reader
import Spl.Diagnostic.Report
import Spl.Program.Outline

/-!
The work of the command: the phases on one source, up to the one that was asked for, and the report
if one of them fails.
-/

namespace Spl.Command

open Text

/-- Works on a source text. The phases write what they show to the output, and the first that fails
is the last. -/
def run (source file : String) (options : Options) : Outcome Sink Unit :=
  match tokenize source (some file) with
  | .error halt => ⟨.unlimited, .error halt⟩
  | .ok tokens =>
    if options.phase = .tokens then
      ⟨Sink.unlimited.put (String.join (tokens.map fun t => t.text ++ "\n")), .ok ()⟩
    else
      match parseTokens tokens file with
      | .error halt => ⟨.unlimited, .error halt⟩
      | .ok program =>
        if options.phase = .parse then
          ⟨Sink.unlimited.put (program.outline.indented ++ "\n"), .ok ()⟩
        else
          (program.buildTable options 0 .unlimited).andThen (fun (_, d) => d.output)
            fun (program, d) table =>
              if options.phase = .tables then ⟨d.output, .ok ()⟩
              else
                match (program.check table).result with
                | .error halt => ⟨d.output, .error halt⟩
                | .ok () => ⟨d.output.put ("No semantic errors found in " ++ file ++ "\n"), .ok ()⟩

/-- How the command ends: its exit code, and what it has written to its two outputs. -/
structure Ending where
  code : UInt32
  output : ByteArray
  errors : String

def Ending.text (code : UInt32) (output errors : String) : Ending :=
  ⟨code, output.toUTF8, errors⟩

/-- The ending on a fault, after some output. -/
def Ending.fault (output : Sink) (f : Fault) : Ending :=
  ⟨101, output.bytes, f.message?.getD "internal fault" ++ "\n"⟩

/-- Works on the file of a path, whose contents have been read. -/
def analyse (path : String) (options : Options) : Except ReadFailure String → Ending
  | .error failure =>
    .text 1 "" ("Error: could not read file '" ++ path ++ "': " ++ failure.message ++ "\n")
  | .ok source =>
    let o := run source (fileName path) options
    match o.result with
    | .ok () => ⟨0, o.after.bytes, ""⟩
    | .error (.fault f) => .fault o.after f
    | .error (.diagnostic d) =>
      match d.report source path with
      | .ok report => ⟨1, (o.after.put report).bytes, ""⟩
      | .error f => .fault o.after f

/-- Answers a request; `readFile` gives the contents of files. -/
def Request.answer (readFile : String → Except ReadFailure String) : Request → Ending
  | .analyse a => Command.analyse a.input a.options (readFile a.input)
  | .exit code output errors => .text code output errors

/-- The command, whatever reads its arguments and its files. -/
def perform (readArguments : List String → Request) (readFile : String → Except ReadFailure String)
    (arguments : List String) : Ending :=
  (readArguments arguments).answer readFile

/-- The command with the reader of arguments from here. -/
def execute (readFile : String → Except ReadFailure String) (arguments : List String) : Ending :=
  perform Request.ofArguments readFile arguments

end Spl.Command
