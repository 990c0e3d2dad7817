/-
# What can be wrong with a source

`Fault` lists every reason for which reading or building a source stops.  Its kind and its
wording are functions of the reason, so the text of a message is decided in one place.
`SourceError` is a fault as it is reported: a kind, a wording and the range it concerns.
-/
import HaloScript.Source.Span
import HaloScript.Text.Quoted

namespace HaloScript

/-- The families of source errors.  A code outside the five families is kept as it is. -/
inductive ErrorKind where
  | unexpectedCharacter
  | unterminatedElement
  | unexpectedAtom
  | unexpectedExpression
  | invalidExpression
  | other (code : Int)
deriving DecidableEq, Inhabited

namespace ErrorKind

def ofCode : Int → ErrorKind
  | 0 => .unexpectedCharacter
  | 1 => .unterminatedElement
  | 2 => .unexpectedAtom
  | 3 => .unexpectedExpression
  | 4 => .invalidExpression
  | n => .other n

def name : ErrorKind → Text
  | .unexpectedCharacter => "unexpected character"
  | .unterminatedElement => "unterminated element"
  | .unexpectedAtom => "unexpected atom"
  | .unexpectedExpression => "unexpected expression"
  | .invalidExpression => "invalid expression"
  | .other n => "unknown error kind " ++ Text.ofInt n

end ErrorKind

/-- A problem that stops the reading of a source, with the range it concerns. -/
structure SourceError where
  kind : ErrorKind
  span : Span
  message : Text
deriving DecidableEq, Inhabited

namespace SourceError

/-- The error on one line: place, family and wording. -/
def render (e : SourceError) : Text := e.span.place ++ ": " ++ e.kind.name ++ ": " ++ e.message

end SourceError

/-- What a form was expected to hold at some position. -/
inductive Expectation where
  | keyword
  | globalType
  | globalName
  | scriptType
  | returnType
  | scriptName
  | parameters
  | parameterType
  | parameterName
  | functionName
deriving DecidableEq, Inhabited

def Expectation.message : Expectation → Text
  | .keyword => "expected \"global\", \"script\" or \"constglobal\" but got an expression"
  | .globalType => "expected an atom for global type"
  | .globalName => "expected an atom for global name"
  | .scriptType => "expected an atom for script type"
  | .returnType => "expected an atom for script return type"
  | .scriptName => "expected an atom for script name"
  | .parameters => "expected an arguments expression"
  | .parameterType => "expected an atom for argument type"
  | .parameterName => "expected an atom for argument name"
  | .functionName => "expected an atom for the function name"

/-- A reason to stop reading or building a source. -/
inductive Fault where
  /-- A carriage return without its line feed. -/
  | loneCarriageReturn
  /-- The text ends inside a quoted atom. -/
  | openQuote
  /-- A closing bracket that closes nothing. -/
  | unopenedBracket
  /-- An atom outside every bracket, as it is written. -/
  | looseAtom (text : Text)
  /-- The text ends inside a bracketed form. -/
  | openForm
  /-- `()` where a declaration or a call should stand. -/
  | emptyForm
  /-- A form ends where something was expected. -/
  | endOfForm (expected : Expectation)
  /-- A form where an atom was expected. -/
  | notAtom (expected : Expectation)
  /-- An atom where a form was expected. -/
  | notForm (expected : Expectation)
  /-- A declaration with an unknown first word. -/
  | unknownKeyword (word : Text)
  /-- A global that does not have a type, a name and one value. -/
  | malformedGlobal
  /-- A script with too few elements. -/
  | shortScript
  /-- A script of an unknown type. -/
  | unknownScriptType (word : Text)
  /-- A parameter list that does not consist of pairs. -/
  | malformedParameters
  /-- An atom where a call should stand. -/
  | atomAsCall
  /-- A second declaration of a name that allows none. -/
  | nameTaken (name : Text)
  /-- A second script of one name with another return type. -/
  | returnTypesDiffer
  /-- A second script of one name that is not the static of a stub, or the other way around. -/
  | notOverloadable
deriving DecidableEq, Inhabited

namespace Fault

def kind : Fault → ErrorKind
  | .loneCarriageReturn | .unopenedBracket => .unexpectedCharacter
  | .openQuote | .openForm => .unterminatedElement
  | .looseAtom _ | .notForm _ | .atomAsCall => .unexpectedAtom
  | .emptyForm | .endOfForm _ | .notAtom _ | .unknownKeyword _ | .nameTaken _
  | .returnTypesDiffer | .notOverloadable => .unexpectedExpression
  | .malformedGlobal | .shortScript | .unknownScriptType _ | .malformedParameters =>
    .invalidExpression

def message : Fault → Text
  | .loneCarriageReturn => "expected a newline after carriage return"
  | .openQuote => "quoted atom is not terminated"
  | .unopenedBracket => "unexpected \")\" with no \"(\" to close"
  | .looseAtom text => "atom " ++ text.quote ++ " is not allowed as a top level expression"
  | .openForm => "expression is not terminated"
  | .emptyForm => "unexpected empty expression"
  | .endOfForm expected => "unexpected end of expression: " ++ expected.message
  | .notAtom expected | .notForm expected => expected.message
  | .unknownKeyword word =>
    "expected \"global\", \"script\" or \"constglobal\" but got " ++ word.quote
  | .malformedGlobal =>
    "expected an expression in the format \"(global <type> <name> <value>)\""
  | .shortScript => "too short to be a script"
  | .unknownScriptType word => "invalid script type " ++ word.quote
  | .malformedParameters => "invalid arguments expression"
  | .atomAsCall => "expected code, got atom"
  | .nameTaken name => "invalid name overload of " ++ name.quote
  | .returnTypesDiffer => "script return types don't match"
  | .notOverloadable => "only stub and static scripts can be overloaded"

def on (f : Fault) (span : Span) : SourceError := ⟨f.kind, span, f.message⟩

end Fault

end HaloScript
