/-!
Signed 32-bit words, kept as integers: wrapping, and division that rounds toward zero. Division
itself is exact and has integers of any size.
-/
namespace Bronti.Word

def modulus : Nat := 4294967296

def least : Int := -2147483648

def greatest : Int := 2147483647

/-- An integer that is a word. -/
def InRange (n : Int) : Prop := least ≤ n ∧ n ≤ greatest

instance (n : Int) : Decidable (InRange n) := inferInstanceAs (Decidable (_ ∧ _))

/-- The word that an integer of any size leaves in 32 bits. -/
def wrap (n : Int) : Int := n.bmod modulus

/-- Division of the absolute values, negative where exactly one of the operands is. -/
def quotient (a b : Int) : Int :=
  let q : Int := (a.natAbs / b.natAbs : Nat)
  if (a < 0) = (b < 0) then q else -q

def remainder (a b : Int) : Int := a - b * quotient a b

/-- The quotient, unless the divisor is zero. -/
def quotient? (a b : Int) : Option Int := if b = 0 then none else some (quotient a b)

/-- The remainder, unless the divisor is zero. -/
def remainder? (a b : Int) : Option Int := if b = 0 then none else some (remainder a b)

theorem inRange_wrap (n : Int) : InRange (wrap n) := by
  have lo := Int.le_bmod (x := n) (m := modulus) (by decide)
  have hi := Int.bmod_lt (x := n) (m := modulus) (by decide)
  simp only [modulus, InRange, least, greatest, wrap] at *
  omega

theorem wrap_of_inRange {n : Int} (h : InRange n) : wrap n = n := by
  simp only [InRange, least, greatest, wrap, modulus] at *
  rw [Int.bmod_eq_of_le] <;> omega

end Bronti.Word
