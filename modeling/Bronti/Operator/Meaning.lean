import Bronti.EvalError
import Bronti.Word

/-!
What the binary operators compute. Arithmetic wraps to 32 bits; comparisons are exact.
-/
namespace Bronti.Operator

/-- What an operator computes from two operands of one kind. -/
inductive Meaning
  | arithmetic (f : Int → Int → Except Cause Int)
  | comparison (f : Int → Int → Bool)
  | logical (f : Bool → Bool → Bool)

/-- Arithmetic that has an answer for any operands. -/
def total (f : Int → Int → Int) : Meaning := .arithmetic fun a b => .ok (Word.wrap (f a b))

/-- Arithmetic that has none for a zero divisor. -/
def divisive (verb : String) (f : Int → Int → Int) : Meaning :=
  .arithmetic fun a b => if b = 0 then .error (.zeroDivisor verb) else .ok (Word.wrap (f a b))

def meaning : Operator → Meaning
  | add => total (· + ·)
  | sub => total (· - ·)
  | mul => total (· * ·)
  | div => divisive "divide" Word.quotient
  | rem => divisive "take remainder" Word.remainder
  | eq => .comparison fun a b => a == b
  | ne => .comparison fun a b => a != b
  | gt => .comparison fun a b => b < a
  | ge => .comparison fun a b => b ≤ a
  | lt => .comparison fun a b => a < b
  | le => .comparison fun a b => a ≤ b
  | and => .logical fun a b => a && b
  | or => .logical fun a b => a || b

/-- The kind of the operands of an operator. -/
def operandKind (o : Operator) : ValueKind :=
  match o.meaning with
  | .logical _ => .boolean
  | _ => .integer

end Bronti.Operator
