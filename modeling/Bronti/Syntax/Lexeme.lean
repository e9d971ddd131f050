import Bronti.Syntax.Token
import Bronti.Text.Position

/-!
Lexemes: the tokens of a text with the place of each. Before a token lies a gap of blanks and
comments; three places of it count, its beginning, the end of its last comment and its end.
-/
namespace Bronti.Syntax

open Text (Position)

/-- The places in a gap: its beginning, the place behind its last comment, which is its beginning
where it has none, and its end. -/
structure Gap where
  origin : Position
  before : Position
  start : Position
deriving DecidableEq, Repr, Inhabited

mutual

/-- The gap at the front of a text that begins at `p`, with the text after it. -/
def scanGap (origin before p : Position) : List Char → Gap × List Char
  | [] => (⟨origin, before, p⟩, [])
  | '/' :: '/' :: cs => scanComment origin ((p.next '/').next '/') cs
  | c :: cs =>
    if Text.isBlank c then scanGap origin before (p.next c) cs else (⟨origin, before, p⟩, c :: cs)

/-- The gap from inside a comment on, which a newline ends unless a backslash stands before it. -/
def scanComment (origin p : Position) : List Char → Gap × List Char
  | [] => (⟨origin, p, p⟩, [])
  | '\\' :: '\n' :: cs => scanComment origin ((p.next '\\').next '\n') cs
  | '\n' :: cs => scanGap origin p (p.next '\n') cs
  | c :: cs => scanComment origin (p.next c) cs

end

/-- A token and the gap before it. -/
structure Lexeme where
  token : Token
  gap : Gap
deriving DecidableEq, Repr

/-- The lexemes of a text up to its end or to a character that begins no token; `gap` is the gap
before that place, and `unread` the text from there. -/
structure Lexemes where
  all : List Lexeme
  gap : Gap
  unread : List Char
deriving DecidableEq, Repr

/-- The lexemes of a text that begins at `p`, at most `limit` of them. -/
def lexemesFrom : Nat → Position → List Char → Lexemes
  | 0, p, cs => ⟨[], ⟨p, p, p⟩, cs⟩
  | limit + 1, p, cs =>
    let (gap, rest) := scanGap p p p cs
    match Token.read? rest with
    | none => ⟨[], gap, rest⟩
    | some (token, after) =>
      let width := rest.length - after.length
      let more := lexemesFrom limit (gap.start.advance (rest.take width)) after
      { more with all := ⟨token, gap⟩ :: more.all }

def Lexemes.ofText (text : List Char) : Lexemes := lexemesFrom (text.length + 1) .start text

end Bronti.Syntax
