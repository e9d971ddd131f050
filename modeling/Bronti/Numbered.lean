/-!
Items of a list by number.
-/
namespace Bronti

/-- The item of a number, which counts from the end where it is negative. -/
def numbered? {α : Type} (items : List α) (n : Int) : Option α :=
  if 0 ≤ n then items[n.toNat]?
  else if 0 ≤ (items.length : Int) + n then items[((items.length : Int) + n).toNat]?
  else none

end Bronti
