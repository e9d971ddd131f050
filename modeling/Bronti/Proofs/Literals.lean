import Bronti.Proofs.Decimal
import Bronti.Proofs.Rendering

/-!
Literals denote their decimal value. The value of a literal is the sum of its digits, each times the
power of ten of its position, if this is a word; else the literal is an error. Zeros in front change
nothing, a word that was printed is read as this word, and no text is read as anything but a word.
-/
namespace Bronti

/-- The number that digits write by their positions: a digit counts the power of ten that belongs to
the digits behind it. -/
def positional : List Char → Nat
  | [] => 0
  | c :: cs => (c.toNat - '0'.toNat) * 10 ^ cs.length + positional cs

/-- Summing over the positions is the same as reading from the left. -/
theorem positional_eq_ofDigitChars (cs : List Char) : positional cs = Nat.ofDigitChars 10 cs 0 := by
  induction cs with
  | nil => rfl
  | cons c cs ih =>
    calc positional (c :: cs)
        = 10 ^ cs.length * (c.toNat - '0'.toNat) + Nat.ofDigitChars 10 cs 0 := by
          rw [positional, ih, Nat.mul_comm]
      _ = Nat.ofDigitChars 10 cs (c.toNat - '0'.toNat) :=
          Nat.ofDigitChars_eq_ofDigitChars_zero.symm
      _ = Nat.ofDigitChars 10 (c :: cs) 0 := by
          rw [Nat.ofDigitChars_cons, Nat.mul_zero, Nat.zero_add]

theorem positional_zeros (k : Nat) (cs : List Char) :
    positional (List.replicate k '0' ++ cs) = positional cs := by
  induction k with
  | zero => rfl
  | succ k ih =>
    rw [List.replicate_succ, List.cons_append, positional, ih, Nat.sub_self, Nat.zero_mul,
      Nat.zero_add]

section Literals

variable {text : String}

/-- A literal of few enough digits is its positional value if this is a word, and else an error. -/
theorem literalValue_of_isLiteral (h : Syntax.IsLiteral text) (hlen : text.length ≤ 4300) :
    literalValue text =
      if positional text.toList ≤ 2147483647 then .ok (positional text.toList)
      else .error (.badLiteral text) := by
  have hread : Text.Integer.read? text = some (positional text.toList : Int) := by
    rw [positional_eq_ofDigitChars]
    exact Text.Integer.read?_of_isDigit h.nonempty h.digits (by rwa [String.length_toList])
  have hword : Word.InRange (positional text.toList) ↔ positional text.toList ≤ 2147483647 := by
    simp only [Word.InRange, Word.least, Word.greatest]
    omega
  rw [literalValue, hread]
  simp only [hword]

/-- A literal with zeros in front of it. -/
def padded (zeros : Nat) (text : String) : String :=
  String.ofList (List.replicate zeros '0') ++ text

theorem toList_padded (zeros : Nat) (text : String) :
    (padded zeros text).toList = List.replicate zeros '0' ++ text.toList := by
  rw [padded, String.toList_append, String.toList_ofList]

theorem Syntax.IsLiteral.padded (h : Syntax.IsLiteral text) (zeros : Nat) :
    Syntax.IsLiteral (padded zeros text) where
  nonempty := by
    rw [toList_padded]
    exact List.append_ne_nil_of_right_ne_nil _ h.nonempty
  digits c hc := by
    rw [toList_padded, List.mem_append] at hc
    rcases hc with hc | hc
    · rw [List.eq_of_mem_replicate hc]
      rfl
    · exact h.digits c hc

/-- Zeros in front are no part of the value. -/
theorem literalValue_padded (h : Syntax.IsLiteral text) {zeros : Nat}
    (hlen : zeros + text.length ≤ 4300) (n : Int) :
    literalValue (padded zeros text) = .ok n ↔ literalValue text = .ok n := by
  have hpadded : (padded zeros text).length ≤ 4300 := by
    rw [← String.length_toList, toList_padded, List.length_append, List.length_replicate,
      String.length_toList]
    exact hlen
  rw [literalValue_of_isLiteral (h.padded zeros) hpadded,
    literalValue_of_isLiteral h (Nat.le_trans (Nat.le_add_left _ _) hlen), toList_padded,
    positional_zeros]
  split
  · rfl
  · simp

end Literals

/-- What is printed for one integer is its text and a newline. -/
theorem printLine_singleton (n : Int) : printLine [n] = toString n ++ "\n" := by
  simp [printLine]

/-- Literals denote their decimal value. A run of at most 4300 ASCII digits is read as its positional
value if this is at most the greatest word, and is an error otherwise, so that zeros in front never
matter; the text that is printed for a word is read as this word; and whatever text is read as an
integer, the integer is a word. -/
theorem literals_denote_decimals :
    (∀ text : String, Syntax.IsLiteral text → text.length ≤ 4300 →
      literalValue text =
        if positional text.toList ≤ 2147483647 then .ok (positional text.toList)
        else .error (.badLiteral text)) ∧
    (∀ (text : String) (zeros : Nat), Syntax.IsLiteral text → zeros + text.length ≤ 4300 →
      ∀ n, literalValue (padded zeros text) = .ok n ↔ literalValue text = .ok n) ∧
    (∀ n : Int, -2147483648 ≤ n → n ≤ 2147483647 →
      ∃ text, printLine [n] = text ++ "\n" ∧ literalValue text = .ok n) ∧
    ∀ (text : String) (n : Int), literalValue text = .ok n → -2147483648 ≤ n ∧ n ≤ 2147483647 := by
  refine ⟨fun text h hlen => literalValue_of_isLiteral h hlen,
    fun text zeros h hlen n => literalValue_padded h hlen n, fun n hlo hhi => ?_,
    fun text n h => inRange_of_literalValue h⟩
  exact ⟨toString n, printLine_singleton n, literalValue_toString ⟨hlo, hhi⟩⟩

/-- The greatest word behind zeros, the number after it, and the least word as it is printed. -/
theorem greatest_and_least_denoted :
    literalValue "002147483647" = .ok 2147483647 ∧
      literalValue "2147483648" = .error (.badLiteral "2147483648") ∧
      ∃ text, printLine [-2147483648] = text ++ "\n" ∧ literalValue text = .ok (-2147483648) := by
  obtain ⟨hdigits, hzeros, hprinted, -⟩ := literals_denote_decimals
  have hgreatest : Syntax.IsLiteral "2147483647" := ⟨by decide, List.all_eq_true.mp rfl⟩
  have hnext : Syntax.IsLiteral "2147483648" := ⟨by decide, List.all_eq_true.mp rfl⟩
  refine ⟨?_, hdigits "2147483648" hnext (by decide), hprinted _ (by decide) (by decide)⟩
  exact (hzeros "2147483647" 2 hgreatest (by decide) 2147483647).mpr
    (hdigits "2147483647" hgreatest (by decide))

end Bronti
