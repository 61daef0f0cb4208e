import Spl.Command.Arguments

/-!
A reader of arguments. They are read from the left: the first one that asks for the version or for
help is answered at once, if nothing before it is wrong. Whether all of them go together is looked
at once they are all read. Of the texts to end with there is only the version; help and complaints
are left without words.
-/

namespace Spl.Command

namespace Request

def version : Request := .exit 0 "splc 0.1.0\n" ""

def help : Request := .exit 0 "" ""

def misuse : Request := .exit 2 "" ""

end Request

/-- What the arguments read so far say. -/
structure Given where
  phases : List Phase
  library : Option Library
  input : Option String

namespace Given

def nothing : Given := ⟨[], none, none⟩

/-- One phase more; the same phase is not named twice. -/
def withPhase? (g : Given) (phase : Phase) : Option Given :=
  if phase ∈ g.phases then none else some { g with phases := g.phases ++ [phase] }

def libraryNamed? : String → Option Library
  | "standard" => some .standard
  | "graphics" => some .graphics
  | _ => none

def withLibrary? (g : Given) (name : String) : Option Given :=
  if g.library.isSome then none
  else (libraryNamed? name).map fun library => { g with library := some library }

/-- An input, which has a name and is the only one. -/
def withInput? (g : Given) (path : String) : Option Given :=
  if path.isEmpty || g.input.isSome then none else some { g with input := some path }

/-- What is asked for when nothing more is given: one input, and work up to one phase. -/
def request (g : Given) : Request :=
  match g.input, g.phases with
  | some path, [] => .analyse (.upTo .all (g.library.getD .graphics) path)
  | some path, [phase] => .analyse (.upTo phase (g.library.getD .graphics) path)
  | _, _ => .misuse

def phaseFlag? : String → Option Phase
  | "--tokens" => some .tokens
  | "--parse" => some .parse
  | "--tables" => some .tables
  | "--semant" => some .semant
  | _ => none

/-- What an option that is not a phase and takes no value asks for. Options of one letter can be
written together, but each of them ends the work. -/
def lastOption (argument : String) : Request :=
  if argument = "--version" then .version
  else if argument = "--help" then .help
  else
    match argument.toList with
    | '-' :: 'V' :: _ => .version
    | '-' :: 'h' :: _ => .help
    | _ => .misuse

/-- The value that is written into an option for the library, behind an equality sign. -/
def attachedLibrary? (argument : String) : Option String :=
  let form := "--library=".toList
  if form.isPrefixOf argument.toList then some (String.ofList (argument.toList.drop form.length))
  else none

/-- Reads arguments that are all inputs. -/
def readInputs : List String → Given → Request
  | [], g => g.request
  | path :: rest, g =>
    match g.withInput? path with
    | some g => readInputs rest g
    | none => .misuse

def readFrom : List String → Given → Request
  | [], g => g.request
  | "--" :: rest, g => readInputs rest g
  | "--library" :: name :: rest, g =>
    match g.withLibrary? name with
    | some g => readFrom rest g
    | none => .misuse
  | argument :: rest, g =>
    if isPlain argument then
      match g.withInput? argument with
      | some g => readFrom rest g
      | none => .misuse
    else
      match phaseFlag? argument, attachedLibrary? argument with
      | some phase, _ =>
        match g.withPhase? phase with
        | some g => readFrom rest g
        | none => .misuse
      | none, some name =>
        match g.withLibrary? name with
        | some g => readFrom rest g
        | none => .misuse
      | none, none => lastOption argument

end Given

def Request.ofArguments (arguments : List String) : Request :=
  Given.readFrom arguments .nothing

end Spl.Command
