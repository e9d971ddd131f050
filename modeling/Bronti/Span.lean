import Bronti.Text.Position
import Bronti.Text.Quoted

/-!
Where a node stands in its source, and the token text that names it.
-/
namespace Bronti

/-- The source, line and column of a node, with the text of its naming token. -/
structure Span where
  file : String
  line : Nat
  column : Nat
  text : String
deriving DecidableEq, Repr, Inhabited

namespace Span

def ofPosition (file : String) (p : Text.Position) (text : String) : Span :=
  ⟨file, p.line, p.column, text⟩

/-- The place as messages show it. -/
def place (s : Span) : String := s!"{s.file}:{s.line}:{s.column}"

/-- The span inside a quoted node. -/
def quoted (s : Span) : String :=
  "SourceSpan(filename=" ++ Text.quote s.file ++ ", line=" ++ toString s.line ++ ", column="
    ++ toString s.column ++ ", text=" ++ Text.quote s.text ++ ")"

end Span

end Bronti
