import Bronti.EvalError
import Bronti.State

/-!
Runs: computations on a state that end with an answer, with an error, with a fault of the tree, or
not at all. The state is kept however they end.
-/
namespace Bronti

/-- Why a run breaks off. -/
inductive Stop
  | error (e : EvalError)
  | fault (f : Fault)
deriving DecidableEq, Repr

/-- How a run ends; `unfinished` if it needs more steps than it was given. -/
inductive Outcome (α : Type)
  | done (a : α) (s : State)
  | stopped (e : Stop) (s : State)
  | unfinished

def Run (α : Type) : Type := State → Outcome α

namespace Run

@[inline] protected def pure {α : Type} (a : α) : Run α := fun s => .done a s

@[inline] protected def bind {α β : Type} (m : Run α) (f : α → Run β) : Run β := fun s =>
  match m s with
  | .done a t => f a t
  | .stopped e t => .stopped e t
  | .unfinished => .unfinished

instance : Monad Run where
  pure := Run.pure
  bind := Run.bind

/-- A run that has no steps left. -/
def unfinished {α : Type} : Run α := fun _ => .unfinished

/-- Breaking off with an error at a span. -/
def error {α : Type} (cause : Cause) (span : Option Span) : Run α := fun s =>
  .stopped (.error ⟨cause, span⟩) s

def fault {α : Type} (f : Fault) : Run α := fun s => .stopped (.fault f) s

/-- An answer, or an error at a span. -/
def ofExcept {α : Type} (span : Option Span) : Except Cause α → Run α
  | .ok a => Run.pure a
  | .error cause => error cause span

/-- Noting a visit to a node. -/
def visit (a : Ast) : Run Unit := fun s => .done () (s.visit a)

def value? (x : String) : Run (Option Int) := fun s => .done (Chain.value? s.frames x) s

def isDefined (x : String) : Run Bool := fun s => .done (Chain.isDefined s.frames x) s

def function? (x : String) : Run (Option Function) := fun s =>
  .done (Chain.function? s.frames x) s

/-- A change of state, and whether it was made; the state stays if not. -/
def attempt (f : State → Option State) : Run Bool := fun s =>
  match f s with
  | some t => .done true t
  | none => .done false s

def declare (x : String) : Run Bool := attempt fun s => s.declare? x

/-- Storing a value in a variable. -/
def set (x : String) (n : Int) : Run Bool := attempt fun s => s.set? x n

def declareFunction (x : String) (g : Function) : Run Bool :=
  attempt fun s => s.declareFunction? x g

/-- Calling the function that is built in. -/
def callBuiltin (name : String) (args : List Int) : Run Bool :=
  attempt fun s => s.callBuiltin? name args

/-- The frame that was opened is closed, however the run inside it ended. -/
def closing {α : Type} (t : State) (ending : State → Outcome α) : Outcome α :=
  match t.close? with
  | some u => ending u
  | none => .stopped (.fault .lastFrame) t

/-- A run inside a frame of its own. -/
@[inline] def inFrame {α : Type} (m : Run α) : Run α := fun s =>
  match m s.opened with
  | .done a t => closing t (.done a)
  | .stopped e t => closing t (.stopped e)
  | .unfinished => .unfinished

end Run

end Bronti
