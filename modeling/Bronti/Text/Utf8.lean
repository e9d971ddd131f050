/-!
Strict UTF-8. A reader owes a number of octets after each first one; the error says which octets of
the data spell no character, and why.
-/
namespace Bronti.Text.Utf8

/-- Why octets spell no character. -/
inductive Reason
  | startByte
  | continuationByte
  | endOfData
deriving DecidableEq, Repr

/-- The octets from index `first` to index `last` spell no character; `lead` is the first of them. -/
structure Malformed where
  lead : Nat
  first : Nat
  last : Nat
  reason : Reason
deriving DecidableEq, Repr

/-- A character begun: its first octet, how many are read and how many are owed, the range
of the next one, and the bits read so far. -/
structure Begun where
  lead : Nat
  read : Nat
  owed : Nat
  low : Nat
  high : Nat
  code : Nat
deriving DecidableEq, Repr

/-- The character that a first octet above U+007F begins. -/
def begin? (b : Nat) : Option Begun :=
  if 0xC2 ≤ b ∧ b ≤ 0xDF then some ⟨b, 1, 1, 0x80, 0xBF, b - 0xC0⟩
  else if b = 0xE0 then some ⟨b, 1, 2, 0xA0, 0xBF, 0⟩
  else if b = 0xED then some ⟨b, 1, 2, 0x80, 0x9F, 0xD⟩
  else if 0xE1 ≤ b ∧ b ≤ 0xEF then some ⟨b, 1, 2, 0x80, 0xBF, b - 0xE0⟩
  else if b = 0xF0 then some ⟨b, 1, 3, 0x90, 0xBF, 0⟩
  else if b = 0xF4 then some ⟨b, 1, 3, 0x80, 0x8F, 4⟩
  else if 0xF1 ≤ b ∧ b ≤ 0xF3 then some ⟨b, 1, 3, 0x80, 0xBF, b - 0xF0⟩
  else none

/-- The character begun, with one more octet. -/
def Begun.push (q : Begun) (b : Nat) : Begun :=
  ⟨q.lead, q.read + 1, q.owed - 1, 0x80, 0xBF, q.code * 64 + (b - 0x80)⟩

/-- The error at index `i` inside a character begun. -/
def Begun.malformed (q : Begun) (i : Nat) (reason : Reason) : Malformed :=
  ⟨q.lead, i - q.read, i - 1, reason⟩

/-- The characters from index `i` on, inside a character begun or between characters. -/
def decodeFrom (i : Nat) : Option Begun → List UInt8 → Except Malformed (List Char)
  | none, [] => .ok []
  | some q, [] => .error (q.malformed i .endOfData)
  | none, b :: bs =>
    let n := b.toNat
    if n ≤ 0x7F then (decodeFrom (i + 1) none bs).map (Char.ofNat n :: ·)
    else match begin? n with
      | some q => decodeFrom (i + 1) (some q) bs
      | none => .error ⟨n, i, i, .startByte⟩
  | some q, b :: bs =>
    let n := b.toNat
    if q.low ≤ n ∧ n ≤ q.high then
      let p := q.push n
      if p.owed = 0 then (decodeFrom (i + 1) none bs).map (Char.ofNat p.code :: ·)
      else decodeFrom (i + 1) (some p) bs
    else .error (q.malformed i .continuationByte)

def decode (bytes : List UInt8) : Except Malformed (List Char) := decodeFrom 0 none bytes

end Bronti.Text.Utf8
