/-!
Positions in a text, counted in characters, and the expansion of tabs that precedes all counting.
-/
namespace Bronti.Text

/-- A place between two characters: how many precede it, and its line and column from 1. -/
structure Position where
  offset : Nat
  line : Nat
  column : Nat
deriving DecidableEq, Repr, Inhabited

namespace Position

/-- The place before the first character. -/
def start : Position := ⟨0, 1, 1⟩

/-- Stepping over a character; only a newline begins a line. -/
def next (p : Position) (c : Char) : Position :=
  if c = '\n' then ⟨p.offset + 1, p.line + 1, 1⟩ else ⟨p.offset + 1, p.line, p.column + 1⟩

def advance (p : Position) (cs : List Char) : Position := cs.foldl next p

@[simp] theorem advance_nil (p : Position) : p.advance [] = p := rfl

@[simp] theorem advance_cons (p : Position) (c : Char) (cs : List Char) :
    p.advance (c :: cs) = (p.next c).advance cs := rfl

@[simp] theorem advance_append (p : Position) (cs ds : List Char) :
    p.advance (cs ++ ds) = (p.advance cs).advance ds := by
  simp [advance]

@[simp] theorem offset_next (p : Position) (c : Char) : (p.next c).offset = p.offset + 1 := by
  unfold next
  split <;> rfl

theorem offset_advance (p : Position) (cs : List Char) :
    (p.advance cs).offset = p.offset + cs.length := by
  induction cs generalizing p with
  | nil => rfl
  | cons c cs ih => simp [ih]; omega

end Position

/-- The text before an offset; a negative offset counts from the end of the text. -/
def textBefore (text : List Char) (offset : Int) : List Char :=
  if 0 ≤ offset then text.take offset.toNat else text.take ((text.length : Int) + offset).toNat

/-- The line of an offset in a text. -/
def lineAt (text : List Char) (offset : Int) : Int :=
  (Position.start.advance (textBefore text offset)).line

/-- The column of an offset in a text; beyond the ends of the text it goes on in steps of one. -/
def columnAt (text : List Char) (offset : Int) : Int :=
  let before := textBefore text offset
  (Position.start.advance before).column + (offset - before.length)

/-- Tabs become blanks up to the next multiple of 8 columns; a newline or a carriage return
begins the columns anew. -/
def expandTabsFrom (column : Nat) : List Char → List Char
  | [] => []
  | '\t' :: cs =>
    List.replicate (8 - column % 8) ' ' ++ expandTabsFrom (column + (8 - column % 8)) cs
  | c :: cs => c :: expandTabsFrom (if c = '\n' ∨ c = '\r' then 0 else column + 1) cs

/-- The text with its tabs expanded. -/
def expandTabs (text : List Char) : List Char := expandTabsFrom 0 text

end Bronti.Text
