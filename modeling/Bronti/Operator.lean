/-!
The binary operators and the five levels at which they bind.
-/
namespace Bronti

/-- A binary operator. -/
inductive Operator
  | add | sub | mul | div | rem
  | eq | ne | gt | ge | lt | le
  | and | or
deriving DecidableEq, Repr, Inhabited

namespace Operator

def symbol : Operator → String
  | add => "+" | sub => "-" | mul => "*" | div => "/" | rem => "%"
  | eq => "==" | ne => "!=" | gt => ">" | ge => ">=" | lt => "<" | le => "<="
  | and => "&&" | or => "||"

def all : List Operator := [add, sub, mul, div, rem, eq, ne, gt, ge, lt, le, and, or]

def ofSymbol? (s : String) : Option Operator := all.find? fun o => o.symbol = s

/-- A level of binding, from the loosest to the tightest. -/
inductive Level
  | disjunction | conjunction | comparison | sum | product
deriving DecidableEq, Repr, Inhabited

/-- The place of a level in the order of binding. -/
def Level.rank : Level → Nat
  | .disjunction => 0 | .conjunction => 1 | .comparison => 2 | .sum => 3 | .product => 4

def level : Operator → Level
  | or => .disjunction
  | and => .conjunction
  | eq | ne | gt | ge | lt | le => .comparison
  | add | sub => .sum
  | mul | div | rem => .product

theorem ofSymbol?_symbol (o : Operator) : ofSymbol? o.symbol = some o := by
  cases o <;> decide +kernel

theorem symbol_of_ofSymbol? {s : String} {o : Operator} (h : ofSymbol? s = some o) :
    o.symbol = s := by
  simpa using List.find?_some h

end Operator

end Bronti
