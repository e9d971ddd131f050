/-!
Results of evaluation.
-/
namespace Bronti

/-- What the evaluation of a node gives: nothing, a value, or a return that is on its way out. -/
inductive Result
  | nothing
  | int (n : Int)
  | bool (b : Bool)
  | returned (n : Int)
deriving DecidableEq, Repr, Inhabited

/-- A kind of value that an operand or a condition has to have. -/
inductive ValueKind
  | integer
  | boolean
deriving DecidableEq, Repr

/-- The name of a kind of value. -/
def ValueKind.name : ValueKind → String
  | integer => "integer"
  | boolean => "boolean"

namespace Result

def display : Result → String
  | nothing => "None"
  | int n => s!"Int({n})"
  | bool true => "Bool(true)"
  | bool false => "Bool(false)"
  | returned n => s!"Return({n})"

/-- The name of the kind of a result. -/
def kindName : Result → String
  | nothing => "no value"
  | int _ => ValueKind.integer.name
  | bool _ => ValueKind.boolean.name
  | returned _ => "return"

end Result

end Bronti
