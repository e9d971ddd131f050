import Bronti.Operator
import Bronti.Text.CharClass

/-!
The tokens of the language and how each is spelled.
-/
namespace Bronti.Syntax

/-- A word that is no name. -/
inductive Keyword
  | function | var | loop | branch | otherwise | result
deriving DecidableEq, Repr

namespace Keyword

def spelling : Keyword → String
  | function => "fun" | var => "var" | loop => "while"
  | branch => "if" | otherwise => "else" | result => "return"

def all : List Keyword := [function, var, loop, branch, otherwise, result]

def ofSpelling? (s : String) : Option Keyword := all.find? fun k => k.spelling = s

end Keyword

/-- A mark that only holds other tokens together. -/
inductive Mark
  | openParen | closeParen | openBrace | closeBrace | comma | assign
deriving DecidableEq, Repr

def Mark.char : Mark → Char
  | openParen => '(' | closeParen => ')' | openBrace => '\x7b' | closeBrace => '\x7d'
  | comma => ',' | assign => '='

/-- A token. -/
inductive Token
  | keyword (k : Keyword)
  | name (s : String)
  | literal (s : String)
  | mark (m : Mark)
  | operator (o : Operator)
deriving DecidableEq, Repr

namespace Token

def spelling : Token → String
  | keyword k => k.spelling
  | name s => s
  | literal s => s
  | mark m => m.char.toString
  | operator o => o.symbol

/-- The token a mark or an operator at the front of a text spells, the longest one, with the text
after it. -/
def ofSymbols? : List Char → Option (Token × List Char)
  | '=' :: '=' :: cs => some (operator .eq, cs)
  | '!' :: '=' :: cs => some (operator .ne, cs)
  | '>' :: '=' :: cs => some (operator .ge, cs)
  | '<' :: '=' :: cs => some (operator .le, cs)
  | '&' :: '&' :: cs => some (operator .and, cs)
  | '|' :: '|' :: cs => some (operator .or, cs)
  | '>' :: cs => some (operator .gt, cs)
  | '<' :: cs => some (operator .lt, cs)
  | '+' :: cs => some (operator .add, cs)
  | '-' :: cs => some (operator .sub, cs)
  | '*' :: cs => some (operator .mul, cs)
  | '/' :: cs => some (operator .div, cs)
  | '%' :: cs => some (operator .rem, cs)
  | '(' :: cs => some (mark .openParen, cs)
  | ')' :: cs => some (mark .closeParen, cs)
  | '\x7b' :: cs => some (mark .openBrace, cs)
  | '\x7d' :: cs => some (mark .closeBrace, cs)
  | ',' :: cs => some (mark .comma, cs)
  | '=' :: cs => some (mark .assign, cs)
  | _ => none

/-- The token a word spells when the text `after` follows it: a keyword, unless a `$` touches it. -/
def ofWord (word : String) (after : List Char) : Token :=
  match Keyword.ofSpelling? word with
  | some k => if after.head? = some '$' then name word else keyword k
  | none => name word

/-- The literal that digits spell when the text `after` follows them, with the text left: where a
letter touches the last digit, the literal ends one digit earlier. -/
def ofDigits? (digits after : List Char) : Option (Token × List Char) :=
  match after with
  | c :: _ =>
    if Text.isNameStart c then
      match digits.getLast? with
      | some d =>
        if digits.length ≤ 1 then none
        else some (literal (String.ofList digits.dropLast), d :: after)
      | none => none
    else some (literal (String.ofList digits), after)
  | [] => some (literal (String.ofList digits), after)

/-- The token at the front of a text, with the text after it. -/
def read? (cs : List Char) : Option (Token × List Char) :=
  match cs with
  | [] => none
  | c :: _ =>
    if Text.isNameStart c then
      let after := cs.dropWhile Text.isNameChar
      some (ofWord (String.ofList (cs.takeWhile Text.isNameChar)) after, after)
    else if Text.isDigit c then
      ofDigits? (cs.takeWhile Text.isDigit) (cs.dropWhile Text.isDigit)
    else ofSymbols? cs

end Token

end Bronti.Syntax
