import Bronti.Text.CharTable

/-!
Classes of characters: the ASCII classes that spell the language's tokens, and the Unicode classes
that error reports and integer texts use.
-/
namespace Bronti.Text

/-- A code point lies in one of the ranges. -/
def inRanges (ranges : List (Nat × Nat)) (code : Nat) : Bool :=
  ranges.any fun r => r.1 ≤ code && code ≤ r.2

/-- A character of a word of any script. -/
def isWord (c : Char) : Bool := inRanges CharTable.word c.toNat

/-- A blank character of any kind. -/
def isSpace (c : Char) : Bool := inRanges CharTable.space c.toNat

/-- A character that quoted text shows as it is. -/
def isPrintable (c : Char) : Bool := inRanges CharTable.printable c.toNat

/-- The value of a decimal digit of any script. -/
def digitValue? (c : Char) : Option Nat :=
  (CharTable.zeros.find? fun z => z ≤ c.toNat && c.toNat < z + 10).map (c.toNat - ·)

/-- A letter of the ASCII alphabet. -/
def isLetter (c : Char) : Bool := ('a' ≤ c && c ≤ 'z') || ('A' ≤ c && c ≤ 'Z')

def isDigit (c : Char) : Bool := '0' ≤ c && c ≤ '9'

/-- A character that may begin a name. -/
def isNameStart (c : Char) : Bool := isLetter c || c == '_'

/-- A character that may continue a name. -/
def isNameChar (c : Char) : Bool := isNameStart c || isDigit c

def isBlank (c : Char) : Bool := c == ' ' || c == '\n' || c == '\r' || c == '\t'

theorem digitValue?_lt {c : Char} {d : Nat} (h : digitValue? c = some d) : d < 10 := by
  obtain ⟨z, hz, rfl⟩ := Option.map_eq_some_iff.1 h
  have := List.find?_some hz
  simp at this
  omega

theorem isNameChar_of_isNameStart {c : Char} (h : isNameStart c) : isNameChar c := by
  simp [isNameChar, h]

end Bronti.Text
