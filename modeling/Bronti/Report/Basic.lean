import Bronti.Report.Excerpt
import Bronti.Report.Hint
import Bronti.Syntax.Grammar

/-!
The report on a text that is not read: what was expected, where, what was found there, the source
around it and hints.
-/
namespace Bronti

/-- A report. -/
structure Report where
  message : String
  location : Int
  line : Int
  column : Int
  expected : List String
  found : Option String
  context : Option String
  suggestions : List String
  file : String
deriving Repr

namespace Report

/-- The line of a report that shows a text, unless it is missing or empty. -/
def shown (heading : String) : Option String → List String
  | some s => if s.isEmpty then [] else [heading ++ s]
  | none => []

def render (r : Report) : String :=
  let heading := s!"Parse error in {r.file} at line {r.line}, column {r.column}:"
  let wanted := if r.expected.isEmpty then [] else ["  Expected: " ++ " or ".intercalate r.expected]
  "\n".intercalate ([heading, "  " ++ r.message] ++ wanted ++ shown "  Found: " r.found
    ++ shown "" r.context ++ r.suggestions.map ("  Hint: " ++ ·)) ++ "\n"

/-- A line may end here: nothing follows but one newline. -/
def isLineEnd (cs : List Char) : Bool := cs.isEmpty || cs == ['\n']

/-- The rest of a line follows. -/
def isRestOfLine (cs : List Char) : Bool := isLineEnd (cs.dropWhile (· != '\n'))

/-- A remark on what was found follows and ends the line. -/
def isFoundRemark : List Char → Bool
  | ',' :: cs =>
    (cs.head?.map Text.isSpace).getD false &&
      match after? "found" (cs.dropWhile Text.isSpace) with
      | some rest => isBoundary rest && isRestOfLine rest
      | none => false
  | _ => false

/-- The shortest beginning of a line, of one character at least, that the end of the line or a
remark on what was found follows. -/
def leastBeginning? : List Char → Option (List Char)
  | [] => none
  | c :: cs =>
    if c == '\n' then none
    else if isFoundRemark cs || isLineEnd cs then some [c]
    else (leastBeginning? cs).map (c :: ·)

/-- What a message says was expected: the text behind the first word and as many blanks as leave
one. -/
def expectedIn? (message : List Char) : Option (List Char) :=
  (after? "Expected" message).bind fun rest =>
    let blanks := (rest.takeWhile Text.isSpace).length
    (List.range blanks).reverse.findSome? fun k => leastBeginning? (rest.drop (k + 1))

/-- What a message says was expected, as a list. -/
def expectedIn (message : String) : List String :=
  ((expectedIn? message.toList).map String.ofList).toList

/-- The report on a message about an offset in a text, which is found on a line and in a column. -/
def make (file : String) (text : List Char) (message : String) (location line column : Int) :
    Report :=
  let found := tokenAt text line column
  let content := (numbered? (Text.lines text) (line - 1)).getD []
  { message := message
    location := location
    line := line
    column := column
    expected := expectedIn message
    found := some found
    context := some (excerpt text line column 2)
    suggestions := (hints found content).map Hint.text
    file := file }

/-- The report on a message about an offset in the text itself. -/
def atOffset (file : String) (text : List Char) (message : String) (offset : Int) : Report :=
  make file text message offset (Text.lineAt text offset) (Text.columnAt text offset)

/-- The message about what is missing. -/
def missingMessage : Syntax.Missing → String
  | .mark m => "Expected '" ++ m.char.toString ++ "'"
  | .endOfText => "Expected end of text"
  | .construct => "Expected a name, an expression or a statement"

/-- The report on a failed reading of a text; its place is one in the text with expanded tabs. -/
def ofFailure (file : String) (text : String) (f : Syntax.Failure) : Report :=
  make file text.toList (missingMessage f.missing) f.pos.offset f.pos.line f.pos.column

end Report

end Bronti
