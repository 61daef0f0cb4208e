import Spl.Diagnostic
import Spl.Text.Outline

/-!
Outlines of causes, with the names of what they carry.
-/

namespace Spl.Cause

open Text

/-- A field that holds a text, in quotes. -/
def quotedField (name value : String) : Outline := .field name (.atom (quote value))

def numberField (name : String) (n : Nat) : Outline := .field name (.atom (toString n))

/-- What a cause carries, in the order in which it is shown. -/
def fields : Cause → List Outline
  | unrecognisedToken token | unexpectedToken token | numberParseError token =>
    [quotedField "token" token]
  | unexpectedTokenDetailed token message =>
    [quotedField "token" token, quotedField "message" message]
  | redeclarationAsType name | redeclarationAsProcedure name | redeclarationAsVariable name
  | redeclarationAsParameter name | undefinedType name | notAType name
  | mustBeAReferenceParameter name | undefinedVariable name | notAVariable name
  | undefinedProcedure name | callOfNonProcedure name => [quotedField "name" name]
  | mainIsMissing | mainIsNotAProcedure | mainMustNotHaveParameters | illegalAssignmentToArray
  | indexingNonArray | indexingWithNonInteger => []
  | illegalAssignment target value => [quotedField "target" target, quotedField "value" value]
  | ifConditionMustBeBoolean actual | whileConditionMustBeBoolean actual =>
    [quotedField "actual" actual]
  | noSuchOperator operator left right =>
    [quotedField "operator" operator, quotedField "left" left,
      .field "right" (.atom (quoteOperand right))]
  | tooManyArguments procedure | tooFewArguments procedure => [quotedField "procedure" procedure]
  | argumentMustBeAVariable procedure index =>
    [quotedField "procedure" procedure, numberField "index" index]
  | argumentTypeMismatch procedure index expected received =>
    [quotedField "procedure" procedure, numberField "index" index, quotedField "expected" expected,
      quotedField "received" received]
  | tableDumpFailed reason => [quotedField "reason" reason]

/-- A cause that carries nothing is shown by its name alone. -/
def outline (c : Cause) : Outline :=
  if c.fields.isEmpty then .atom c.name else .record c.name c.fields

end Spl.Cause
