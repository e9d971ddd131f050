import Bronti.Eval
import Mathlib.Algebra.Group.Nat.Defs

/-!
Decimal texts. A run of ASCII digits is read as the number that it writes, and the text that is
written for an integer as this integer. A literal is a text that is read as a word, such as the text
of a word.
-/
namespace Bronti

namespace Text.Integer

/-! ## Written digits -/

/-- What is written for a number is a run of ASCII digits. -/
theorem isDigit_of_mem_toString {k : Nat} {c : Char} (h : c ∈ (toString k).toList) :
    c.isDigit = true := by
  rw [Nat.toString_eq_repr, Nat.toList_repr] at h
  exact Nat.isDigit_of_mem_toDigits (by decide) (by decide) h

theorem toNat_of_isDigit {c : Char} (h : c.isDigit = true) : 48 ≤ c.toNat ∧ c.toNat ≤ 57 := by
  simpa [Char.isDigit, UInt32.le_iff_toNat_le] using h

theorem digitValue?_of_isDigit {c : Char} (h : c.isDigit = true) :
    digitValue? c = some (c.toNat - '0'.toNat) := by
  have hrange := toNat_of_isDigit h
  have hzero : (CharTable.zeros.find? fun z => z ≤ c.toNat && c.toNat < z + 10) = some 48 := by
    rw [CharTable.zeros, List.find?_cons_of_pos]
    simp only [Bool.and_eq_true, decide_eq_true_eq]
    omega
  rw [digitValue?, hzero]
  rfl

theorem not_isPadding_of_lt {c : Char} (hlo : 32 < c.toNat) (hhi : c.toNat < 0x85) :
    isPadding c = false := by
  have hspace : isSpace c = false := by
    simp [isSpace, inRanges, CharTable.space]
    omega
  rw [isPadding, hspace, Bool.false_and]

theorem not_isPadding_of_isDigit {c : Char} (h : c.isDigit = true) : isPadding c = false := by
  have hrange := toNat_of_isDigit h
  exact not_isPadding_of_lt (by omega) (by omega)

/-- The digits of a run of ASCII digits are their values, one by one. -/
theorem digits?_of_isDigit {cs : List Char} (hne : cs ≠ []) (h : ∀ c ∈ cs, c.isDigit = true) :
    digits? cs = some (cs.map fun c => c.toNat - '0'.toNat) := by
  induction cs with
  | nil => exact absurd rfl hne
  | cons c cs ih =>
    obtain ⟨hc, hcs⟩ := List.forall_mem_cons.mp h
    cases cs with
    | nil => simp [digits?, digitValue?_of_isDigit hc]
    | cons e cs =>
      -- the digit that follows is no underscore, which would be passed over
      have he : e ≠ '_' := by
        rintro rfl
        simp at hcs
      have hrest := ih (by simp) hcs
      unfold digits?
      rw [digitValue?_of_isDigit hc]
      simp [hrest]

/-- A run of ASCII digits is read as the number that it writes. -/
theorem natural?_of_isDigit {cs : List Char} (hne : cs ≠ []) (h : ∀ c ∈ cs, c.isDigit = true)
    (hlen : cs.length ≤ maxDigits) : natural? cs = some (Nat.ofDigitChars 10 cs 0) := by
  rw [natural?, digits?_of_isDigit hne h, Option.bind_some, if_pos (by simpa using hlen),
    Nat.ofDigitChars_eq_foldl, ofDigits, List.foldl_map]

/-- No blank stands around a text that holds none. -/
theorem trim_of_solid {cs : List Char} (h : ∀ c ∈ cs, isPadding c = false) : trim cs = cs := by
  have hkept : ∀ {ds : List Char}, (∀ c ∈ ds, isPadding c = false) →
      ds.dropWhile isPadding = ds := by
    intro ds hds
    cases ds with
    | nil => rfl
    | cons d ds => exact List.dropWhile_cons_of_neg (by simp [hds d (by simp)])
  rw [trim, hkept h, hkept fun c hc => h c (List.mem_reverse.mp hc), List.reverse_reverse]

/-- A sign is read before a run of digits, which begins with none. -/
theorem signed?_of_isDigit {cs : List Char} (h : ∀ c ∈ cs, c.isDigit = true) :
    signed? cs = (natural? cs).map fun n : Nat => (n : Int) := by
  unfold signed?
  split
  · simp at h
  · simp at h
  · cases natural? cs <;> rfl

theorem signed?_minus (cs : List Char) :
    signed? ('-' :: cs) = (natural? cs).map fun n : Nat => -(n : Int) := by
  rw [signed?]
  cases natural? cs <;> rfl

/-- A text that is a run of ASCII digits is read as the number that they write. -/
theorem read?_of_isDigit {text : String} (hne : text.toList ≠ [])
    (h : ∀ c ∈ text.toList, c.isDigit = true) (hlen : text.toList.length ≤ maxDigits) :
    read? text = some (Nat.ofDigitChars 10 text.toList 0 : Int) := by
  rw [read?, trim_of_solid fun c hc => not_isPadding_of_isDigit (h c hc), signed?_of_isDigit h,
    natural?_of_isDigit hne h hlen]
  rfl

/-- The text that is written for an integer is read as this integer, if it has not too many
digits. -/
theorem read?_toString {n : Int} (h : n.natAbs < 10 ^ maxDigits) : read? (toString n) = some n := by
  have hdigits : ∀ k : Nat, ∀ c ∈ Nat.toDigits 10 k, c.isDigit = true := fun k c hc =>
    Nat.isDigit_of_mem_toDigits (by decide) (by decide) hc
  have hlen : ∀ k : Nat, k < 10 ^ maxDigits → (Nat.toDigits 10 k).length ≤ maxDigits := fun _ =>
    (Nat.length_toDigits_le_iff (by decide) (by decide)).mpr
  cases n with
  | ofNat k =>
    have htext : (toString (Int.ofNat k)).toList = Nat.toDigits 10 k := Nat.toList_repr
    rw [read?_of_isDigit (by rw [htext]; exact Nat.toDigits_ne_nil) (by rw [htext]; exact hdigits k)
      (by rw [htext]; exact hlen k h), htext, Nat.ofDigitChars_toDigits (by decide) (by decide)]
    rfl
  | negSucc k =>
    have htext : (toString (Int.negSucc k)).toList = '-' :: Nat.toDigits 10 (k + 1) := by
      change ("-" ++ (k + 1).repr).toList = _
      rw [String.toList_append, Nat.toList_repr]
      rfl
    have hsolid : ∀ c ∈ '-' :: Nat.toDigits 10 (k + 1), isPadding c = false :=
      List.forall_mem_cons.mpr ⟨not_isPadding_of_lt (by decide) (by decide), fun c hc =>
        not_isPadding_of_isDigit (hdigits _ c hc)⟩
    rw [read?, htext, trim_of_solid hsolid, signed?_minus,
      natural?_of_isDigit Nat.toDigits_ne_nil (hdigits _) (hlen (k + 1) h),
      Nat.ofDigitChars_toDigits (by decide) (by decide)]
    rfl

end Text.Integer

/-! ## Literals -/

section Literals

variable {text : String} {n : Int}

/-- A literal is an integer that is read and is a word. -/
theorem literalValue_eq_ok :
    literalValue text = .ok n ↔ Text.Integer.read? text = some n ∧ Word.InRange n := by
  unfold literalValue
  cases Text.Integer.read? text with
  | none => simp
  | some m =>
    by_cases hm : Word.InRange m
    · simp only [if_pos hm, Except.ok.injEq, Option.some.injEq]
      exact ⟨fun h => ⟨h, h ▸ hm⟩, And.left⟩
    · simp only [if_neg hm, reduceCtorEq, false_iff, Option.some.injEq]
      rintro ⟨rfl, hn⟩
      exact hm hn

theorem literalValue_error {c : Cause} (h : literalValue text = .error c) :
    c = .badLiteral text := by
  unfold literalValue at h
  split at h
  · split at h
    · cases h
    · cases h
      rfl
  · cases h
    rfl

theorem inRange_of_literalValue (h : literalValue text = .ok n) : Word.InRange n :=
  (literalValue_eq_ok.mp h).2

/-- The text of a word is a literal of it. -/
theorem literalValue_toString (h : Word.InRange n) : literalValue (toString n) = .ok n := by
  have hsmall : n.natAbs < 10 ^ 10 := by
    simp only [Word.InRange, Word.least, Word.greatest] at h
    omega
  have hfew : (10 : Nat) ^ 10 ≤ 10 ^ Text.Integer.maxDigits :=
    Nat.pow_le_pow_right (by decide) (by decide)
  exact literalValue_eq_ok.mpr ⟨Text.Integer.read?_toString (Nat.lt_of_lt_of_le hsmall hfew), h⟩

end Literals

end Bronti
