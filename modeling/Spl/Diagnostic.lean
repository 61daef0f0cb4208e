import Spl.Count
import Spl.Position

/-!
Diagnostics: what is wrong with a source text, and where. A cause carries names and types as the
texts a message shows, so that a diagnostic outlives the tables it was found with.
-/

namespace Spl

inductive Cause
  | unrecognisedToken (token : String)
  | unexpectedToken (token : String)
  | unexpectedTokenDetailed (token message : String)
  | numberParseError (token : String)
  | redeclarationAsType (name : String)
  | redeclarationAsProcedure (name : String)
  | redeclarationAsVariable (name : String)
  | redeclarationAsParameter (name : String)
  | undefinedType (name : String)
  | notAType (name : String)
  | mustBeAReferenceParameter (name : String)
  | mainIsMissing
  | mainIsNotAProcedure
  | mainMustNotHaveParameters
  | undefinedVariable (name : String)
  | notAVariable (name : String)
  | undefinedProcedure (name : String)
  | callOfNonProcedure (name : String)
  | illegalAssignment (target value : String)
  | illegalAssignmentToArray
  | ifConditionMustBeBoolean (actual : String)
  | whileConditionMustBeBoolean (actual : String)
  | noSuchOperator (operator left : String) (right : Option String)
  | indexingNonArray
  | indexingWithNonInteger
  | tooManyArguments (procedure : String)
  | tooFewArguments (procedure : String)
  | argumentMustBeAVariable (procedure : String) (index : Nat)
  | argumentTypeMismatch (procedure : String) (index : Nat) (expected received : String)
  | tableDumpFailed (reason : String)
  deriving DecidableEq, Repr

structure Diagnostic where
  cause : Cause
  position : Position
  deriving DecidableEq, Repr

namespace Cause

open Text (quote)

def name : Cause → String
  | unrecognisedToken _ => "UnrecognisedToken"
  | unexpectedToken _ => "UnexpectedToken"
  | unexpectedTokenDetailed _ _ => "UnexpectedTokenDetailed"
  | numberParseError _ => "NumberParseError"
  | redeclarationAsType _ => "RedeclarationAsType"
  | redeclarationAsProcedure _ => "RedeclarationAsProcedure"
  | redeclarationAsVariable _ => "RedeclarationAsVariable"
  | redeclarationAsParameter _ => "RedeclarationAsParameter"
  | undefinedType _ => "UndefinedType"
  | notAType _ => "NotAType"
  | mustBeAReferenceParameter _ => "MustBeAReferenceParameter"
  | mainIsMissing => "MainIsMissing"
  | mainIsNotAProcedure => "MainIsNotAProcedure"
  | mainMustNotHaveParameters => "MainMustNotHaveParameters"
  | undefinedVariable _ => "UndefinedVariable"
  | notAVariable _ => "NotAVariable"
  | undefinedProcedure _ => "UndefinedProcedure"
  | callOfNonProcedure _ => "CallOfNonProcedure"
  | illegalAssignment _ _ => "IllegalAssignment"
  | illegalAssignmentToArray => "IllegalAssignmentToArray"
  | ifConditionMustBeBoolean _ => "IfConditionMustBeBoolean"
  | whileConditionMustBeBoolean _ => "WhileConditionMustBeBoolean"
  | noSuchOperator _ _ _ => "NoSuchOperator"
  | indexingNonArray => "IndexingNonArray"
  | indexingWithNonInteger => "IndexingWithNonInteger"
  | tooManyArguments _ => "TooManyArguments"
  | tooFewArguments _ => "TooFewArguments"
  | argumentMustBeAVariable _ _ => "ArgumentMustBeAVariable"
  | argumentTypeMismatch _ _ _ _ => "ArgumentTypeMismatch"
  | tableDumpFailed _ => "TableDumpFailed"

/-- The second operand of a rejected operator, as a message shows it. -/
def quoteOperand : Option String → String
  | none => "None"
  | some operand => "Some(" ++ quote operand ++ ")"

/-- The sentence for a name that its scope already holds. -/
def redeclared (name role : String) : String :=
  "identifier " ++ quote name ++ " is already defined in this scope, cannot redeclare it as "
    ++ role

/-- What is wrong, as a message. Arguments of calls count from zero here. -/
def message : Cause → String
  | unrecognisedToken token => "unrecognised token: " ++ quote token
  | unexpectedToken token => "unexpected token: " ++ quote token
  | unexpectedTokenDetailed token detail =>
    "unexpected token (" ++ quote detail ++ "): " ++ quote token
  | numberParseError token => "error parsing number: " ++ quote token
  | redeclarationAsType name => redeclared name "a type"
  | redeclarationAsProcedure name => redeclared name "a procedure"
  | redeclarationAsVariable name => redeclared name "a variable"
  | redeclarationAsParameter name => redeclared name "a parameter"
  | undefinedType name => "undefined type " ++ quote name
  | notAType name => "identifier " ++ quote name ++ " does not refer to a type"
  | mustBeAReferenceParameter name =>
    "parameter " ++ quote name ++ " must be a reference parameter"
  | mainIsMissing => "procedure 'main' is missing"
  | mainIsNotAProcedure => "'main' is not a procedure"
  | mainMustNotHaveParameters => "procedure 'main' must not have any parameters"
  | undefinedVariable name => "undefined variable " ++ quote name
  | notAVariable name => "identifier " ++ quote name ++ " does not refer to a variable"
  | undefinedProcedure name => "undefined procedure " ++ quote name
  | callOfNonProcedure name => "identifier " ++ quote name ++ " does not refer to a procedure"
  | illegalAssignment target value =>
    "illegal assignment: cannot assign " ++ value ++ " to " ++ target
  | illegalAssignmentToArray => "illegal assignment to an array"
  | ifConditionMustBeBoolean actual => "'if' condition must be a boolean, found " ++ actual
  | whileConditionMustBeBoolean actual => "'while' condition must be a boolean, found " ++ actual
  | noSuchOperator operator left right =>
    "no such operator " ++ quote operator ++ " for operand types " ++ left ++ " and "
      ++ quoteOperand right
  | indexingNonArray => "indexing a non-array"
  | indexingWithNonInteger => "indexing with a non-integer"
  | tooManyArguments procedure => "too many arguments in call of procedure " ++ quote procedure
  | tooFewArguments procedure => "too few arguments in call of procedure " ++ quote procedure
  | argumentMustBeAVariable procedure index =>
    "argument " ++ toString index ++ " of procedure " ++ quote procedure ++ " must be a variable"
  | argumentTypeMismatch procedure index expected received =>
    "argument " ++ toString index ++ " of procedure " ++ quote procedure ++ ": expected "
      ++ expected ++ ", received " ++ received
  | tableDumpFailed reason => "failed to write symbol table dump: " ++ reason

/-- The tip for a name that its scope already holds. -/
def redeclaredTip (name role : String) : String :=
  "`" ++ name ++ "` is already declared in this scope and cannot be redeclared as " ++ role

/-- A sentence for the author of the source, where there is one to give. Arguments of calls count
from one here, so the largest index of all has no tip. -/
def tip : Cause → Except Fault (Option String)
  | unrecognisedToken _ => return none
  | unexpectedToken token =>
    return some ("Unexpected token: `" ++ token ++ "`, did you miss a semicolon?")
  | unexpectedTokenDetailed token detail =>
    return some ("Unexpected token: `" ++ token ++ "`, " ++ detail)
  | numberParseError token =>
    return some ("Invalid number: `" ++ token ++ "`, is it above the integer limit?")
  | redeclarationAsType name => return some (redeclaredTip name "a type")
  | redeclarationAsProcedure name => return some (redeclaredTip name "a procedure")
  | redeclarationAsVariable name => return some (redeclaredTip name "a variable")
  | redeclarationAsParameter name => return some (redeclaredTip name "a parameter")
  | undefinedType name => return some ("Type `" ++ name ++ "` is not defined")
  | notAType name => return some ("`" ++ name ++ "` is not a type")
  | mustBeAReferenceParameter name =>
    return some ("Parameter `" ++ name ++ "` has an array type, declare it with `ref`")
  | mainIsMissing => return some "Declare a procedure `main()`"
  | mainIsNotAProcedure => return some "`main` must be declared as a procedure"
  | mainMustNotHaveParameters => return some "Remove the parameters of `main`"
  | undefinedVariable name => return some ("Variable `" ++ name ++ "` not declared")
  | notAVariable name => return some ("`" ++ name ++ "` is not a variable")
  | undefinedProcedure name => return some ("Procedure `" ++ name ++ "` not declared")
  | callOfNonProcedure name =>
    return some ("`" ++ name ++ "` is not a procedure and cannot be called")
  | illegalAssignment target value =>
    return some ("Cannot assign a value of type `" ++ value ++ "` to a target of type `" ++ target
      ++ "`")
  | illegalAssignmentToArray =>
    return some "Arrays cannot be assigned as a whole, assign their elements instead"
  | ifConditionMustBeBoolean actual =>
    return some ("Expected a `boolean` condition, found `" ++ actual ++ "`")
  | whileConditionMustBeBoolean actual =>
    return some ("Expected a `boolean` condition, found `" ++ actual ++ "`")
  | noSuchOperator operator left (some right) =>
    return some ("Operator `" ++ operator ++ "` is not defined for `" ++ left ++ "` and `" ++ right
      ++ "`")
  | noSuchOperator operator left none =>
    return some ("Operator `" ++ operator ++ "` is not defined for `" ++ left ++ "`")
  | indexingNonArray => return some "Only arrays can be indexed"
  | indexingWithNonInteger => return some "Array indices must be of type `int`"
  | tooManyArguments procedure =>
    return some ("Too many arguments in call of procedure `" ++ procedure ++ "`")
  | tooFewArguments procedure =>
    return some ("Too few arguments in call of procedure `" ++ procedure ++ "`")
  | argumentMustBeAVariable procedure index => do
    return some ("Argument " ++ toString (← Count.add index 1) ++ " of procedure `" ++ procedure
      ++ "` is passed by reference and must be a variable")
  | argumentTypeMismatch procedure index expected received => do
    return some ("Argument " ++ toString (← Count.add index 1) ++ " of procedure `" ++ procedure
      ++ "`: expected type `" ++ expected ++ "`, received `" ++ received ++ "`")
  | tableDumpFailed _ => return none

end Cause

end Spl
