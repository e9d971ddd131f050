import Bronti.Numbered
import Bronti.Text.Lines
import Bronti.Text.Quoted

/-!
What a report shows of a source: numbered lines around a place with a caret under it, and the token
found there. Lines and columns count from 1.
-/
namespace Bronti.Report

/-- The lines of a text, a single empty one if it has none. -/
def shownLines (text : List Char) : List (List Char) :=
  match Text.lines text with
  | [] => [[]]
  | ls => ls

/-- A text filled up with blanks on the left. -/
def padLeft (width : Nat) (cs : List Char) : List Char :=
  List.replicate (width - cs.length) ' ' ++ cs

/-- The decimal digits of a line number. -/
def digits (n : Nat) : List Char := (toString n).toList

/-- What stands before the text of a line. -/
def margin (width : Nat) (marked : Bool) (number : Nat) : List Char :=
  [' ', ' ', if marked then '>' else ' ', ' '] ++ padLeft width (digits number) ++ [' ', '|', ' ']

/-- The row of a line, with the caret row after it where the line is the marked one. -/
def rowsOf (width : Nat) (line column : Int) (number : Nat) (content : List Char) :
    List (List Char) :=
  if (number : Int) = line then
    [margin width true number ++ content,
      List.replicate (4 + width) ' ' ++ [' ', '|', ' ']
        ++ List.replicate (column - 1).toNat ' ' ++ ['^']]
  else [margin width false number ++ content]

/-- The rows of an excerpt: the lines at most `radius` away from the marked one. -/
def excerptRows (text : List Char) (line column radius : Int) : List (List Char) :=
  let ls := shownLines text
  let first := max 1 (line - radius)
  let last := min (ls.length : Int) (line + radius)
  let width := (toString last).length
  ((ls.zipIdx 1).filter fun l => first ≤ (l.2 : Int) && (l.2 : Int) ≤ last).flatMap fun l =>
    rowsOf width line column l.2 l.1

/-- The rows of an excerpt with newlines between them. -/
def excerpt (text : List Char) (line column : Int) (radius : Int) : String :=
  String.ofList (List.intercalate ['\n'] (excerptRows text line column radius))

/-- The characters of a line from a column on; columns below 1 count from the end of the line. -/
def fromColumn (content : List Char) (column : Int) : List Char :=
  if 1 ≤ column then content.drop (column - 1).toNat
  else content.drop (content.length + column - 1).toNat

/-- The word or the single character that comes first, blanks apart. -/
def firstToken? (cs : List Char) : Option (List Char) :=
  match cs.dropWhile Text.isSpace with
  | [] => none
  | c :: rest => some (if Text.isWord c then (c :: rest).takeWhile Text.isWord else [c])

/-- What stands at a place: a token in quotes, or the end of the line or of the input. A line below
1 counts from the last one, and nothing stands before the first. -/
def tokenAt? (text : List Char) (line column : Int) : Option String :=
  let ls := Text.lines text
  if (ls.length : Int) < line then some "end of input"
  else (numbered? ls (line - 1)).map fun content =>
    match firstToken? (fromColumn content column) with
    | some token => Text.quote (String.ofList token)
    | none => if line < ls.length then "end of line" else "end of input"

/-- What stands at a place on a line from 1 on. -/
def tokenAt (text : List Char) (line column : Int) : String :=
  (tokenAt? text line column).getD "end of input"

end Bronti.Report
