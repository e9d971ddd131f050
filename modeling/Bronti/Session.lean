import Bronti.Ast.Record
import Bronti.Datum.Display
import Bronti.Eval
import Bronti.Lowering.Basic
import Bronti.Report.Basic

/-!
From a text to its parse tree, its lowered tree and the exit code of its run, with what each stage
writes to its trace.
-/
namespace Bronti

/-- Why a text comes to no answer. -/
inductive Problem
  | unread (missing : Syntax.Missing) (r : Report)
  | tooDeep
  | defect (d : Defect)
  | stopped (e : Stop)
  | unfinished

/-- An answer or a problem, what was printed, and the trace, which is empty unless it is asked
for. -/
structure Session (α : Type) where
  answer : Except Problem α
  printed : String
  trace : String

namespace Session

/-- A session that a problem ends. -/
def failed {α : Type} (p : Problem) : Session α := ⟨.error p, "", ""⟩

def andThen {α β : Type} (s : Session α) (f : α → Session β) : Session β :=
  match s.answer with
  | .ok a =>
    let t := f a
    ⟨t.answer, s.printed ++ t.printed, s.trace ++ t.trace⟩
  | .error p => ⟨.error p, s.printed, s.trace⟩

/-- The problem that a text is not read. -/
def refusal (file text : String) : Syntax.Refusal → Problem
  | .failed f => .unread f.missing (.ofFailure file text f)
  | .tooDeep => .tooDeep

/-- A program read, and the number of its statements traced. -/
def readProgram (file : String) (tracing : Bool) (text : String) : Session Datum :=
  match Syntax.readProgram text with
  | .ok p =>
    ⟨.ok (p.toDatum file), "",
      if tracing then s!"Parsed {file}: {p.statements.length} top-level statements\n" else ""⟩
  | .error e => failed (refusal file text e)

def readStatement (file text : String) : Session Datum :=
  match Syntax.readStatement text with
  | .ok s => ⟨.ok (s.toDatum file), "", ""⟩
  | .error e => failed (refusal file text e)

def readExpression (file text : String) : Session Datum :=
  match Syntax.readExpression text with
  | .ok e => ⟨.ok (e.toDatum file), "", ""⟩
  | .error e => failed (refusal file text e)

/-- A tree lowered, as a whole program or as the node that it is. -/
def lower (whole tracing : Bool) (d : Datum) : Session Ast :=
  let (r, trace) := (if whole then lowerProgram d else Bronti.lower d).run tracing
  match r with
  | .ok a => ⟨.ok a, "", trace⟩
  | .error e => ⟨.error (.defect e), "", trace⟩

def run (tracing : Bool) (a : Ast) : Session Int :=
  match evaluate enoughSteps tracing a with
  | .done n s => ⟨.ok n, s.output, s.trace⟩
  | .stopped e s => ⟨.error (.stopped e), s.output, s.trace⟩
  | .unfinished => failed .unfinished

/-- A text lowered as a program. -/
def lowerText (file : String) (tracing : Bool) (text : String) : Session Ast :=
  (readProgram file tracing text).andThen (lower true tracing)

/-- A text run as a program. -/
def runText (file : String) (tracing : Bool) (text : String) : Session Int :=
  (lowerText file tracing text).andThen (run tracing)

end Session

end Bronti
