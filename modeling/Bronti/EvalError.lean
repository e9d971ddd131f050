import Bronti.Operator
import Bronti.Result
import Bronti.Span

/-!
Errors that end the evaluation of a program: the cause, its kind and its message.
-/
namespace Bronti

/-- A kind of error. -/
inductive ErrorKind
  | redefinition
  | undefinedVariable
  | undefinedFunction
  | typeMismatch
  | invalidLiteral
  | duplicateParameter
  | arityMismatch
  | divisionByZero
deriving DecidableEq, Repr

namespace ErrorKind

/-- The name of a kind of error. -/
def name : ErrorKind → String
  | redefinition => "redefinition"
  | undefinedVariable => "undefined-variable"
  | undefinedFunction => "undefined-function"
  | typeMismatch => "type-mismatch"
  | invalidLiteral => "invalid-literal"
  | duplicateParameter => "duplicate-parameter"
  | arityMismatch => "arity-mismatch"
  | divisionByZero => "division-by-zero"

def all : List ErrorKind :=
  [redefinition, undefinedVariable, undefinedFunction, typeMismatch, invalidLiteral,
    duplicateParameter, arityMismatch, divisionByZero]

/-- The kind of error of a name. -/
def ofName? (s : String) : Option ErrorKind := all.find? fun k => k.name = s

/-- What is said of a name that is none of them. -/
def unknownMessage (s : String) : String := "Unknown evaluation error kind: " ++ s

end ErrorKind

/-- The cause of an error. -/
inductive Cause
  | redefinedVariable (name : String)
  | redefinedFunction (name : String)
  | undeclared (name : String)
  | unset (name : String)
  | unknownFunction (name : String)
  | mismatch (expected : ValueKind) (actual : Result)
  | badLiteral (text : String)
  | repeatedParameter
  | arity (name : String) (expected actual : Int)
  | zeroDivisor (verb : String)
deriving DecidableEq, Repr

namespace Cause

def kind : Cause → ErrorKind
  | redefinedVariable _ => .redefinition
  | redefinedFunction _ => .redefinition
  | undeclared _ => .undefinedVariable
  | unset _ => .undefinedVariable
  | unknownFunction _ => .undefinedFunction
  | mismatch _ _ => .typeMismatch
  | badLiteral _ => .invalidLiteral
  | repeatedParameter => .duplicateParameter
  | arity _ _ _ => .arityMismatch
  | zeroDivisor _ => .divisionByZero

def message : Cause → String
  | redefinedVariable name => s!"Redefinition of a variable: {name}."
  | redefinedFunction name => s!"Redefinition of the function {name}."
  | undeclared name => s!"A variable {name} is undefined."
  | unset name => s!"Undefined or unset variable {name}."
  | unknownFunction name => s!"There is no such function: {name}."
  | mismatch expected actual =>
    "Incorrect result type of expression: expected " ++ expected.name ++ ", got "
      ++ actual.kindName ++ "."
  | badLiteral text => s!"Invalid literal {text}"
  | repeatedParameter => "Same parameter names in function are not allowed."
  | arity name expected actual =>
    s!"Invalid number of arguments: {name} requires {expected}, got {actual}."
  | zeroDivisor verb => s!"Cannot {verb} by zero."

end Cause

/-- An error: its cause, and the span of the node that it arose at. -/
structure EvalError where
  cause : Cause
  span : Option Span
deriving DecidableEq, Repr

namespace EvalError

def line? (e : EvalError) : Option Nat := e.span.map Span.line

/-- A message about an error on a line. -/
def located (line : Option Int) (message : String) : String :=
  match line with
  | some n => s!"Evaluation error in line {n}: {message}"
  | none => s!"Evaluation error: {message}"

def render (e : EvalError) : String := located (e.line?.map Int.ofNat) e.cause.message

end EvalError

end Bronti
