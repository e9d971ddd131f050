import Bronti.Text.CharClass

/-!
Hints for common mistakes, each with the condition on the token found and on its line under which
it is given.
-/
namespace Bronti.Report

/-- A hint. -/
inductive Hint
  | semicolon
  | strayElse
  | bareCondition
  | foreignFunction
  | missingBraces
  | textLiteral
  | unaryOperator
deriving DecidableEq, Repr

/-- Some place where a word may begin satisfies a condition on the text from there; `prior` is the
character before the text. -/
def anyWordStart (p : List Char → Bool) (prior : Option Char) : List Char → Bool
  | [] => false
  | c :: cs =>
    (!(prior.map Text.isWord).getD false && p (c :: cs)) || anyWordStart p (some c) cs

def isBoundary : List Char → Bool
  | [] => true
  | c :: _ => !Text.isWord c

/-- The text that follows a word at the front. -/
def after? (word : String) (cs : List Char) : Option (List Char) :=
  if word.toList.isPrefixOf cs then some (cs.drop word.toList.length) else none

/-- One of the words occurs, as a whole. -/
def hasWord (words : List String) (line : List Char) : Bool :=
  anyWordStart (fun cs => words.any fun w => ((after? w cs).map isBoundary).getD false) none line

/-- Blanks follow, and then something other than an opening parenthesis. -/
def isBareCondition (cs : List Char) : Bool :=
  match cs with
  | [] => false
  | c :: _ => Text.isSpace c && match cs.dropWhile Text.isSpace with
    | [] => false
    | d :: _ => d != '('

/-- A `!` or `-` stands before a word. -/
def hasUnary : List Char → Bool
  | [] => false
  | c :: cs =>
    ((c == '!' || c == '-') && match cs.dropWhile Text.isSpace with
      | [] => false
      | d :: _ => Text.isWord d) || hasUnary cs

namespace Hint

def text : Hint → String
  | semicolon => "Bronti doesn't use semicolons; put each statement on its own line"
  | strayElse => "'else' must directly follow the closing brace of an if block"
  | bareCondition => "Conditions of 'if' and 'while' must be parenthesized"
  | foreignFunction => "Functions are declared with 'fun name(a, b) \x7b ... \x7d'"
  | missingBraces => "Bodies of 'fun', 'if', 'while' and 'else' must be wrapped in braces"
  | textLiteral => "Bronti has no strings; values are integers and booleans only"
  | unaryOperator => "There are no unary operators; write '0 - x' or 'x == 0'"

/-- The condition of a hint on the token found and on its line. -/
def applies (found : String) (line : List Char) : Hint → Bool
  | semicolon => found == "';'"
  | strayElse => found == "'else'"
  | bareCondition =>
    anyWordStart (fun cs => ["if", "while"].any fun w =>
      ((after? w cs).map isBareCondition).getD false) none line
  | foreignFunction => hasWord ["function", "def"] line
  | missingBraces => hasWord ["fun", "if", "while", "else"] line && !line.contains '\x7b'
  | textLiteral => found == "'\"'"
  | unaryOperator => (found == "'!'" || found == "'-'") && hasUnary line

/-- Every hint, in the order in which they are given. -/
def all : List Hint :=
  [semicolon, strayElse, bareCondition, foreignFunction, missingBraces, textLiteral, unaryOperator]

end Hint

/-- The hints for a token found on a line. -/
def hints (found : String) (line : List Char) : List Hint :=
  Hint.all.filter (Hint.applies found line)

end Bronti.Report
