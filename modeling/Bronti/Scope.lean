import Bronti.Ast.Basic

/-!
Scopes. A frame keeps its variables and its functions apart, each in the order of declaration; a
chain of frames is searched from the innermost outward.
-/
namespace Bronti

/-- A function as declared. -/
structure Function where
  params : List String
  body : Ast

/-- One scope: variables, which hold nothing until they are set, and functions. -/
structure Frame where
  vars : List (String × Option Int)
  funs : List (String × Function)

namespace Frame

def empty : Frame := ⟨[], []⟩

/-- A variable is declared in the frame. -/
def hasVariable (f : Frame) (x : String) : Bool := (f.vars.lookup x).isSome

/-- A function is declared in the frame. -/
def hasFunction (f : Frame) (x : String) : Bool := (f.funs.lookup x).isSome

/-- Bindings with a value stored under a name, in the place that the name has. -/
def store (x : String) (n : Int) : List (String × Option Int) → List (String × Option Int)
  | [] => []
  | (y, v) :: rest => if y = x then (y, some n) :: rest else (y, v) :: store x n rest

/-- The frame with a value stored in a variable. -/
def setVariable (f : Frame) (x : String) (n : Int) : Frame :=
  { f with vars := store x n f.vars }

/-- The frame with one more variable. -/
def addVariable (f : Frame) (x : String) : Frame :=
  { f with vars := f.vars ++ [(x, none)] }

/-- The frame with one more function. -/
def addFunction (f : Frame) (x : String) (g : Function) : Frame :=
  { f with funs := f.funs ++ [(x, g)] }

end Frame

abbrev Chain := List Frame

namespace Chain

/-- A variable is declared in some frame. -/
def isDefined (fs : Chain) (x : String) : Bool := fs.any fun f => f.hasVariable x

/-- The value of the innermost variable of a name, if there is one and it is set. -/
def value? : Chain → String → Option Int
  | [], _ => none
  | f :: fs, x =>
    match f.vars.lookup x with
    | some v => v
    | none => value? fs x

/-- The chain with a value stored in the innermost variable of a name. -/
def set? (x : String) (n : Int) : Chain → Option Chain
  | [] => none
  | f :: fs => if f.hasVariable x then some (f.setVariable x n :: fs) else (set? x n fs).map (f :: ·)

/-- The innermost function of a name. -/
def function? : Chain → String → Option Function
  | [], _ => none
  | f :: fs, x =>
    match f.funs.lookup x with
    | some g => some g
    | none => function? fs x

theorem isDefined_cons (f : Frame) (fs : Chain) (x : String) :
    isDefined (f :: fs) x = (f.hasVariable x || isDefined fs x) := rfl

theorem set?_isSome (x : String) (n : Int) (fs : Chain) : (set? x n fs).isSome = isDefined fs x := by
  induction fs with
  | nil => rfl
  | cons f fs ih =>
    simp only [set?, isDefined_cons]
    split
    · next h => simp [h]
    · next h => simp [h, ih]

end Chain

end Bronti
