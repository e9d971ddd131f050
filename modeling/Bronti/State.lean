import Bronti.Scope

/-!
The state of an evaluation: the chain of frames, what was printed and, where it is traced, which
nodes were evaluated.
-/
namespace Bronti

/-- A node that was evaluated: its line, how many frames were open, and its kind. -/
structure Visit where
  line : Option Nat
  depth : Nat
  kind : String
deriving DecidableEq, Repr

def Visit.display (v : Visit) : String :=
  "[line " ++ (match v.line with | some n => toString n | none => "?") ++ "] depth="
    ++ toString v.depth ++ " " ++ v.kind

/-- The state of an evaluation: its innermost frame, the frames outside it from the inside outward,
and the newest print and the newest visit first. -/
structure State where
  inner : Frame
  outer : Chain
  printed : List (List Int)
  tracing : Bool
  visits : List Visit

/-- The name of the only function that is not declared by programs. -/
def builtinName : String := "println"

/-- What the function that is built in takes and gives. -/
def builtinSignature : String := "Int... -> None"

/-- The line that is printed for integers. -/
def printLine (args : List Int) : String := " ".intercalate (args.map toString) ++ "\n"

namespace State

def initial (tracing : Bool) : State := ⟨.empty, [], [], tracing, []⟩

/-- The open frames, of which there is always one. -/
def frames (s : State) : Chain := s.inner :: s.outer

def output (s : State) : String := String.join (s.printed.reverse.map printLine)

/-- Every visit as a line of text. -/
def trace (s : State) : String := String.join (s.visits.reverse.map fun v => v.display ++ "\n")

def depth (s : State) : Nat := s.frames.length

/-- The state with one more frame. -/
def opened (s : State) : State := { s with inner := .empty, outer := s.frames }

/-- The state without its innermost frame, which is not to be the last. -/
def close? (s : State) : Option State :=
  match s.outer with
  | [] => none
  | f :: fs => some { s with inner := f, outer := fs }

/-- The state with a line printed. -/
def print (s : State) (args : List Int) : State := { s with printed := args :: s.printed }

/-- The state with a visit to a node noted. -/
def visit (s : State) (a : Ast) : State :=
  if s.tracing && a.isNode then
    { s with visits := ⟨a.span.map Span.line, s.depth, a.kind⟩ :: s.visits }
  else s

/-- Printing, where the name is that of the function that is built in. -/
def callBuiltin? (s : State) (name : String) (args : List Int) : Option State :=
  if name = builtinName then some (s.print args) else none

/-- The state with a variable declared in the innermost frame, which is to have none of its name. -/
def declare? (s : State) (x : String) : Option State :=
  if s.inner.hasVariable x then none else some { s with inner := s.inner.addVariable x }

/-- The state with a value stored in the innermost variable of a name. -/
def set? (s : State) (x : String) (n : Int) : Option State :=
  if s.inner.hasVariable x then some { s with inner := s.inner.setVariable x n }
  else (Chain.set? x n s.outer).map fun fs => { s with outer := fs }

/-- The state with a function declared in the innermost frame, which is to have none of its name. -/
def declareFunction? (s : State) (x : String) (g : Function) : Option State :=
  if s.inner.hasFunction x then none else some { s with inner := s.inner.addFunction x g }

end State

end Bronti
