import Bronti.Text.CharClass

/-!
Integers in decimal text: blanks around, a sign, digits of any script, single underscores between
digits, and at most 4300 digits.
-/
namespace Bronti.Text.Integer

/-- A blank that may surround an integer; the four separators of ASCII are none. -/
def isPadding (c : Char) : Bool := isSpace c && !(0x1C ≤ c.toNat && c.toNat ≤ 0x1F)

/-- The text without the blanks around it. -/
def trim (cs : List Char) : List Char :=
  ((cs.dropWhile isPadding).reverse.dropWhile isPadding).reverse

/-- The values of the digits of a run in which an underscore may stand between two digits. -/
def digits? : List Char → Option (List Nat)
  | [] => none
  | c :: cs =>
    match digitValue? c with
    | none => none
    | some d =>
      match cs with
      | [] => some [d]
      | '_' :: rest => (digits? rest).map (d :: ·)
      | e :: rest => (digits? (e :: rest)).map (d :: ·)

/-- The number that digits write in the decimal system. -/
def ofDigits (ds : List Nat) : Nat := ds.foldl (fun n d => 10 * n + d) 0

/-- The most digits that an integer may have. -/
def maxDigits : Nat := 4300

/-- The number that a run of digits writes. -/
def natural? (cs : List Char) : Option Nat :=
  (digits? cs).bind fun ds => if ds.length ≤ maxDigits then some (ofDigits ds) else none

/-- The number that a run of digits after an optional sign writes. -/
def signed? : List Char → Option Int
  | '-' :: cs => (natural? cs).map fun n => -(n : Int)
  | '+' :: cs => (natural? cs).map fun n => (n : Int)
  | cs => (natural? cs).map fun n => (n : Int)

/-- The integer that a text writes. -/
def read? (text : String) : Option Int := signed? (trim text.toList)

end Bronti.Text.Integer
