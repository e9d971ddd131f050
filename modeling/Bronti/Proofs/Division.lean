import Bronti.Word

/-!
Division that rounds toward zero, for integers of any size. A division is told by three properties:
quotient and remainder make up the dividend, the remainder is smaller than the divisor, and it has
the sign of the dividend unless it is zero. For each dividend and each divisor other than zero there
is one such quotient and one such remainder.
-/
namespace Bronti.Word

/-- A quotient and a remainder of a division that rounds toward zero. -/
structure IsDivision (a b q r : Int) : Prop where
  dividend : a = b * q + r
  small : r.natAbs < b.natAbs
  sign : r = 0 ∨ r.sign = a.sign

/-- Division of the absolute values with a sign put on is division that rounds toward zero. -/
theorem quotient_eq_tdiv (a b : Int) : quotient a b = a.tdiv b := by
  have habs : (a.tdiv b).natAbs = a.natAbs / b.natAbs := Int.natAbs_tdiv a b
  unfold quotient
  rw [← habs]
  -- the absolute values agree, so that the signs are left, with one case for each pair of them
  by_cases ha : a < 0
  · by_cases hb : b < 0
    · have hsign := Int.tdiv_nonneg_of_nonpos_of_nonpos (Int.le_of_lt ha) (Int.le_of_lt hb)
      rw [if_pos (by simp [ha, hb])]
      omega
    · have hsign := Int.tdiv_nonneg (a := -a) (b := b) (by omega) (by omega)
      rw [Int.neg_tdiv] at hsign
      rw [if_neg (by simp [ha, hb])]
      omega
  · by_cases hb : b < 0
    · have hsign := Int.tdiv_nonpos_of_nonneg_of_nonpos (a := a) (b := b) (by omega) (by omega)
      rw [if_neg (by simp [ha, hb])]
      omega
    · have hsign := Int.tdiv_nonneg (a := a) (b := b) (by omega) (by omega)
      rw [if_pos (by simp [ha, hb])]
      omega

theorem remainder_eq_tmod (a b : Int) : remainder a b = a.tmod b := by
  rw [remainder, quotient_eq_tdiv, Int.tmod_def]

section Division

variable {a b q r : Int}

theorem isDivision_tdiv (hb : b ≠ 0) : IsDivision a b (a.tdiv b) (a.tmod b) where
  dividend := (Int.mul_tdiv_add_tmod a b).symm
  small := by
    rw [Int.natAbs_tmod]
    exact Nat.mod_lt _ (Int.natAbs_pos.mpr hb)
  sign := by
    have hsign : (a.tmod b).sign = if b ∣ a then 0 else a.sign := Int.sign_tmod a b
    split at hsign
    · exact .inl (Int.sign_eq_zero_iff_zero.mp hsign)
    · exact .inr hsign

/-- A remainder of a dividend that is not negative is not negative. -/
theorem IsDivision.nonneg (h : IsDivision a b q r) (ha : 0 ≤ a) : 0 ≤ r := by
  rcases h.sign with hzero | hsign
  · exact Int.le_of_eq hzero.symm
  · rw [← Int.sign_nonneg_iff, hsign]
    exact Int.sign_nonneg_iff.mpr ha

theorem IsDivision.nonpos (h : IsDivision a b q r) (ha : a ≤ 0) : r ≤ 0 := by
  rcases h.sign with hzero | hsign
  · exact Int.le_of_eq hzero
  · rw [← Int.sign_nonpos_iff, hsign]
    exact Int.sign_nonpos_iff.mpr ha

/-- The sign of the dividend bounds the remainder on one side, and there is only one remainder
between there and the divisor. -/
theorem IsDivision.eq_tdiv (h : IsDivision a b q r) (hb : b ≠ 0) :
    q = a.tdiv b ∧ r = a.tmod b := by
  have hsum : r + b * q = a := by rw [h.dividend, Int.add_comm]
  have hsmall : r.natAbs < b.natAbs := h.small
  rcases Int.le_total 0 a with ha | ha
  · have hlow : 0 ≤ r := h.nonneg ha
    obtain ⟨hq, hr⟩ := (Int.tdiv_tmod_unique ha hb).mpr ⟨hsum, hlow, by omega⟩
    exact ⟨hq.symm, hr.symm⟩
  · have hhigh : r ≤ 0 := h.nonpos ha
    obtain ⟨hq, hr⟩ := (Int.tdiv_tmod_unique' ha hb).mpr ⟨hsum, by omega, hhigh⟩
    exact ⟨hq.symm, hr.symm⟩

/-- Division by anything but zero has an answer, which makes up the dividend with a remainder that
is smaller than the divisor and is zero or has the sign of the dividend; and no other quotient and
remainder do. -/
theorem division_unique (hb : b ≠ 0) :
    quotient? a b = some (quotient a b) ∧ remainder? a b = some (remainder a b) ∧
      IsDivision a b (quotient a b) (remainder a b) ∧
      ∀ q r, IsDivision a b q r → q = quotient a b ∧ r = remainder a b := by
  refine ⟨if_neg hb, if_neg hb, ?_, fun q r h => ?_⟩
  · rw [quotient_eq_tdiv, remainder_eq_tmod]
    exact isDivision_tdiv hb
  · rw [quotient_eq_tdiv, remainder_eq_tmod]
    exact h.eq_tdiv hb

/-- A negative dividend, whose quotient rounded down would be another one. -/
theorem minus_seven_by_two :
    quotient? (-7) 2 = some (-3) ∧ remainder? (-7) 2 = some (-1) ∧ IsDivision (-7) 2 (-3) (-1) ∧
      ¬ IsDivision (-7) 2 (-4) 1 := by
  obtain ⟨hquotient, hremainder, hdivision, hunique⟩ :=
    division_unique (a := -7) (b := 2) (by decide)
  refine ⟨hquotient, hremainder, hdivision, fun h => ?_⟩
  obtain ⟨hfloor, -⟩ := hunique (-4) 1 h
  exact absurd hfloor (by decide)

end Division

end Bronti.Word
