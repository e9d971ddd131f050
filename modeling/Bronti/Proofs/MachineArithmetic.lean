import Bronti.Operator.Meaning
import Bronti.Proofs.Division

/-!
Arithmetic on words is that of 32 bits: addition, subtraction and multiplication of bit vectors for
operands of any size, and signed division of bit vectors for operands that are words.
-/
namespace Bronti

namespace Word

/-- The 32 bits of an integer of any size. -/
def bits (n : Int) : BitVec 32 := BitVec.ofInt 32 n

/-! ## Sums and products -/

section Wrapping

variable (a b : Int)

/-- Wrapping takes the offset from the least word, of which 32 bits are left. -/
theorem wrap_eq_offset : wrap a = (a - least) % modulus + least := by
  unfold wrap modulus least
  rw [Int.bmod_def]
  by_cases hlow : a % (4294967296 : Nat) < ((4294967296 : Nat) + 1) / 2
  · rw [if_pos hlow]
    omega
  · rw [if_neg hlow]
    omega

theorem toInt_bits : (bits a).toInt = wrap a := BitVec.toInt_ofInt a

theorem toInt_bits_of_inRange {n : Int} (h : InRange n) : (bits n).toInt = n := by
  rw [toInt_bits, wrap_of_inRange h]

theorem wrap_add_wrap : wrap (wrap a + wrap b) = wrap (a + b) := by
  simp only [wrap, Int.bmod_add_bmod, Int.add_bmod_bmod]

theorem wrap_sub_wrap : wrap (wrap a - wrap b) = wrap (a - b) := by
  simp only [wrap, Int.bmod_sub_bmod, Int.sub_bmod_bmod]

theorem wrap_mul_wrap : wrap (wrap a * wrap b) = wrap (a * b) := by
  simp only [wrap, Int.bmod_mul_bmod, Int.mul_bmod_bmod]

theorem toInt_bits_add : (bits a + bits b).toInt = wrap (a + b) := by
  rw [BitVec.toInt_add, toInt_bits, toInt_bits]
  exact wrap_add_wrap a b

theorem toInt_bits_sub : (bits a - bits b).toInt = wrap (a - b) := by
  rw [BitVec.toInt_sub, toInt_bits, toInt_bits]
  exact wrap_sub_wrap a b

theorem toInt_bits_mul : (bits a * bits b).toInt = wrap (a * b) := by
  rw [BitVec.toInt_mul, toInt_bits, toInt_bits]
  exact wrap_mul_wrap a b

end Wrapping

/-! ## Quotients and remainders -/

section Division

variable {a b : Int}

theorem inRange_tmod (ha : InRange a) : InRange (a.tmod b) := by
  have habs : (a.tmod b).natAbs = a.natAbs % b.natAbs := Int.natAbs_tmod a b
  have hle : a.natAbs % b.natAbs ≤ a.natAbs := Nat.mod_le _ _
  unfold InRange least greatest at *
  by_cases hn : 0 ≤ a
  · have hsign := Int.tmod_nonneg b hn
    omega
  · have hsign := Int.tmod_nonneg (a := -a) b (by omega)
    rw [Int.neg_tmod] at hsign
    omega

/-- The quotient of two words is a word, but for that of the least word by minus one. -/
theorem inRange_tdiv (ha : InRange a) (hb : b ≠ 0) :
    InRange (a.tdiv b) ↔ ¬ (a = least ∧ b = -1) := by
  have habs : (a.tdiv b).natAbs = a.natAbs / b.natAbs := Int.natAbs_tdiv a b
  unfold InRange least greatest at *
  by_cases hneg : b = -1
  · subst hneg
    rw [Int.tdiv_neg, Int.tdiv_one]
    omega
  · by_cases hone : b = 1
    · subst hone
      rw [Int.tdiv_one]
      omega
    · have hhalf : a.natAbs / b.natAbs ≤ a.natAbs / 2 :=
        Nat.div_le_div_left (by omega) (by decide)
      omega

/-- Quotient and remainder make up the dividend again, in words as in integers. -/
theorem wrap_quotient_remainder (ha : InRange a) :
    wrap (wrap (wrap (a.tdiv b) * b) + wrap (a.tmod b)) = a := by
  have hproduct : wrap (wrap (a.tdiv b) * b) = wrap (a.tdiv b * b) := by
    simp only [wrap, Int.bmod_mul_bmod]
  rw [hproduct, wrap_add_wrap, Int.mul_comm, Int.mul_tdiv_add_tmod, wrap_of_inRange ha]

theorem toInt_bits_sdiv (ha : InRange a) (hb : InRange b) :
    ((bits a).sdiv (bits b)).toInt = wrap (a.tdiv b) := by
  rw [BitVec.toInt_sdiv, toInt_bits_of_inRange ha, toInt_bits_of_inRange hb]
  rfl

theorem toInt_bits_srem (ha : InRange a) (hb : InRange b) :
    ((bits a).srem (bits b)).toInt = a.tmod b := by
  rw [BitVec.toInt_srem, toInt_bits_of_inRange ha, toInt_bits_of_inRange hb]

end Division

end Word

namespace Operator

open Word

/-- The arithmetic operator gives an answer or an error for two integers. -/
def Computes (o : Operator) (a b : Int) (r : Except Cause Int) : Prop :=
  ∃ f, o.meaning = .arithmetic f ∧ f a b = r

section Computes

variable {o : Operator} {a b : Int} {r r' : Except Cause Int}

theorem Computes.unique (h : o.Computes a b r) (h' : o.Computes a b r') : r = r' := by
  obtain ⟨f, hf, rfl⟩ := h
  obtain ⟨g, hg, rfl⟩ := h'
  obtain rfl := Meaning.arithmetic.inj (hf.symm.trans hg)
  rfl

theorem computes_add (a b : Int) : add.Computes a b (.ok (wrap (a + b))) := ⟨_, rfl, rfl⟩

theorem computes_sub (a b : Int) : sub.Computes a b (.ok (wrap (a - b))) := ⟨_, rfl, rfl⟩

theorem computes_mul (a b : Int) : mul.Computes a b (.ok (wrap (a * b))) := ⟨_, rfl, rfl⟩

theorem computes_div (hb : b ≠ 0) : div.Computes a b (.ok (wrap (a.tdiv b))) :=
  ⟨_, rfl, by rw [if_neg hb, quotient_eq_tdiv]⟩

theorem computes_rem (hb : b ≠ 0) : rem.Computes a b (.ok (wrap (a.tmod b))) :=
  ⟨_, rfl, by rw [if_neg hb, remainder_eq_tmod]⟩

/-- What arithmetic comes to is wrapped, or it is the error of a division by zero. -/
theorem Computes.wrapped_or_error (h : o.Computes a b r) :
    (∃ n, r = .ok (wrap n)) ∨
      b = 0 ∧ (o = .div ∧ r = .error (.zeroDivisor "divide") ∨
        o = .rem ∧ r = .error (.zeroDivisor "take remainder")) := by
  obtain ⟨f, hf, rfl⟩ := h
  cases o with
  | add | sub | mul =>
    cases hf
    exact .inl ⟨_, rfl⟩
  | div | rem =>
    cases hf
    by_cases hb : b = 0
    · simp [hb]
    · exact .inl ⟨_, if_neg hb⟩
  | eq | ne | gt | ge | lt | le | and | or => cases hf

theorem Computes.inRange {n : Int} (h : o.Computes a b (.ok n)) : InRange n := by
  obtain ⟨m, hm⟩ | ⟨-, ⟨-, hr⟩ | ⟨-, hr⟩⟩ := h.wrapped_or_error
  · cases hm
    exact inRange_wrap m
  · cases hr
  · cases hr

/-- The only errors of arithmetic are those of the two divisions by zero. -/
theorem computes_error {c : Cause} : o.Computes a b (.error c) ↔
    b = 0 ∧ (o = .div ∧ c = .zeroDivisor "divide" ∨
      o = .rem ∧ c = .zeroDivisor "take remainder") := by
  constructor
  · intro h
    obtain ⟨m, hm⟩ | ⟨hb, hcause⟩ := h.wrapped_or_error
    · cases hm
    · exact ⟨hb, by simpa using hcause⟩
  · intro h
    obtain ⟨rfl, ⟨rfl, rfl⟩ | ⟨rfl, rfl⟩⟩ := h
    · exact ⟨_, rfl, rfl⟩
    · exact ⟨_, rfl, rfl⟩

theorem Computes.error_kind {c : Cause} (h : o.Computes a b (.error c)) :
    c.kind = .divisionByZero := by
  obtain ⟨-, ⟨-, rfl⟩ | ⟨-, rfl⟩⟩ := computes_error.mp h
  · rfl
  · rfl

/-- An answer of an operator that divides is for a divisor other than zero. -/
theorem Computes.divisor_ne_zero {n : Int} (h : o.Computes a b (.ok n)) (ho : o = .div ∨ o = .rem) :
    b ≠ 0 := by
  intro hb
  have herror : ∃ c, o.Computes a b (.error c) := by
    rcases ho with rfl | rfl
    · exact ⟨_, computes_error.mpr ⟨hb, .inl ⟨rfl, rfl⟩⟩⟩
    · exact ⟨_, computes_error.mpr ⟨hb, .inr ⟨rfl, rfl⟩⟩⟩
  obtain ⟨c, hc⟩ := herror
  cases h.unique hc

/-- The quotient of two words is exact, unless the least word is divided by minus one. -/
theorem computes_exact_quotient (ha : InRange a) (hb : b ≠ 0) :
    div.Computes a b (.ok (a.tdiv b)) ↔ ¬ (a = least ∧ b = -1) := by
  rw [← inRange_tdiv ha hb]
  constructor
  · intro h
    have heq := Except.ok.inj (h.unique (computes_div hb))
    rw [heq]
    exact inRange_wrap _
  · intro h
    have hcomputes := computes_div (a := a) hb
    rwa [wrap_of_inRange h] at hcomputes

end Computes

/-- Arithmetic is that of 32-bit machine words. Sums, differences and products of integers of any
size are those of their bits. The quotient and the remainder of two words are those of signed
division of bits; the quotient is exact but for that of the least word by minus one, which is the
least word again; and multiplied by the divisor, with the remainder added, it makes up the dividend.
Nothing is an error but division by zero. -/
theorem arithmetic_of_bits (a b : Int) :
    (add.Computes a b (.ok (bits a + bits b).toInt) ∧
      sub.Computes a b (.ok (bits a - bits b).toInt) ∧
      mul.Computes a b (.ok (bits a * bits b).toInt)) ∧
    (InRange a → InRange b → b ≠ 0 →
      div.Computes a b (.ok ((bits a).sdiv (bits b)).toInt) ∧
      rem.Computes a b (.ok ((bits a).srem (bits b)).toInt) ∧
      (div.Computes a b (.ok (a.tdiv b)) ↔ ¬ (a = least ∧ b = -1)) ∧
      rem.Computes a b (.ok (a.tmod b)) ∧
      ∃ q p r, div.Computes a b (.ok q) ∧ mul.Computes q b (.ok p) ∧ rem.Computes a b (.ok r) ∧
        add.Computes p r (.ok a)) ∧
    (div.Computes least (-1) (.ok least) ∧ rem.Computes least (-1) (.ok 0)) ∧
    ∀ (o : Operator) (c : Cause), o.Computes a b (.error c) ↔
      b = 0 ∧ c.kind = .divisionByZero ∧
        (o = .div ∧ c = .zeroDivisor "divide" ∨ o = .rem ∧ c = .zeroDivisor "take remainder") := by
  refine ⟨⟨?_, ?_, ?_⟩, fun ha hb hne => ?_, ⟨⟨_, rfl, rfl⟩, ⟨_, rfl, rfl⟩⟩, fun o c => ?_⟩
  · rw [toInt_bits_add]
    exact computes_add a b
  · rw [toInt_bits_sub]
    exact computes_sub a b
  · rw [toInt_bits_mul]
    exact computes_mul a b
  · have hremainder := computes_rem (a := a) hne
    refine ⟨?_, ?_, computes_exact_quotient ha hne, ?_, ?_⟩
    · rw [toInt_bits_sdiv ha hb]
      exact computes_div hne
    · rwa [toInt_bits_srem ha hb, ← wrap_of_inRange (inRange_tmod ha)]
    · rwa [wrap_of_inRange (inRange_tmod ha)] at hremainder
    · refine ⟨_, _, _, computes_div hne, computes_mul _ b, hremainder, ?_⟩
      have hsum := computes_add (wrap (wrap (a.tdiv b) * b)) (wrap (a.tmod b))
      rwa [wrap_quotient_remainder ha] at hsum
  · refine ⟨fun h => ?_, fun h => computes_error.mpr ⟨h.1, h.2.2⟩⟩
    obtain ⟨hb, hcause⟩ := computes_error.mp h
    exact ⟨hb, h.error_kind, hcause⟩

/-- The least word divided by minus one, and multiplied by it again. -/
theorem least_by_minus_one :
    div.Computes least (-1) (.ok ((bits least).sdiv (bits (-1))).toInt) ∧
      ¬ div.Computes least (-1) (.ok (least.tdiv (-1))) ∧
      ∃ q p r, div.Computes least (-1) (.ok q) ∧ mul.Computes q (-1) (.ok p) ∧
        rem.Computes least (-1) (.ok r) ∧ add.Computes p r (.ok least) := by
  obtain ⟨hdiv, -, hexact, -, hsum⟩ :=
    (arithmetic_of_bits least (-1)).2.1 (by decide) (by decide) (by decide)
  exact ⟨hdiv, fun h => hexact.mp h ⟨rfl, rfl⟩, hsum⟩

end Operator

end Bronti
