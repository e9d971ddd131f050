import Bronti.Names
import Bronti.Operator.Meaning
import Bronti.Run
import Bronti.Text.Integer

/-!
The evaluator. `nodeWith` evaluates one node, given how to evaluate the nodes inside it, and `eval`
puts it into itself as often as there are steps. A function runs in a frame on top of the frames of
its caller, so that its free names are those of the caller.
-/
namespace Bronti

/-- The word that the text of a literal writes. -/
def literalValue (text : String) : Except Cause Int :=
  match Text.Integer.read? text with
  | some n => if Word.InRange n then .ok n else .error (.badLiteral text)
  | none => .error (.badLiteral text)

/-- The integer that a result is to be. -/
def Result.toInt : Result → Except Cause Int
  | .int n => .ok n
  | r => .error (.mismatch .integer r)

/-- The boolean that a result is to be. -/
def Result.toBool : Result → Except Cause Bool
  | .bool b => .ok b
  | r => .error (.mismatch .boolean r)

namespace Eval

open Run

/-- The integer that a node is to give. -/
@[inline] def intWith (rec : Ast → Run Result) (a : Ast) : Run Int := do
  let r ← rec a
  ofExcept a.span r.toInt

/-- The boolean that a node is to give. -/
@[inline] def boolWith (rec : Ast → Run Result) (a : Ast) : Run Bool := do
  let r ← rec a
  ofExcept a.span r.toBool

/-- The integers that nodes give, from the left. -/
def intsWith (rec : Ast → Run Result) : List Ast → Run (List Int)
  | [] => pure []
  | a :: as => do
    let n ← intWith rec a
    let ns ← intsWith rec as
    return n :: ns

/-- Statements in order up to the first return. -/
def statementsWith (rec : Ast → Run Result) : List Ast → Run Result
  | [] => pure .nothing
  | a :: as => do
    let r ← rec a
    match r with
    | .returned n => return .returned n
    | _ => statementsWith rec as

/-- The first child of a node. -/
def firstWith (rec : Ast → Run Result) : List Ast → Run Result
  | [] => fault .noChild
  | a :: _ => rec a

/-- A program, which returns 0 unless it returns something else. -/
def programWith (rec : Ast → Run Result) (children : List Ast) : Run Result := do
  let r ← firstWith rec children
  match r with
  | .returned n => return .returned n
  | _ => return .returned 0

def functionStatement (name : String) (params : List String) (body : Ast) (span : Option Span) :
    Run Result := do
  if !(repeated params).isEmpty then error .repeatedParameter span
  else
    let made ← declareFunction name ⟨params, body⟩
    if made then return .nothing else error (.redefinedFunction name) span

def declarationWith (rec : Ast → Run Result) (name : String) (initializer : Option Ast)
    (span : Option Span) : Run Result := do
  let made ← declare name
  if !made then error (.redefinedVariable name) span
  else
    match initializer with
    | none => return .nothing
    | some e =>
      let n ← intWith rec e
      let _ ← set name n
      return .nothing

def assignmentWith (rec : Ast → Run Result) (name : String) (value : Ast) (span : Option Span) :
    Run Result := do
  let defined ← isDefined name
  if !defined then error (.undeclared name) span
  else
    let n ← intWith rec value
    let _ ← set name n
    return .nothing

/-- A branch; a body that is missing does nothing. -/
def branchWith (rec : Ast → Run Result) (condition : Ast) (positive negative : Option Ast) :
    Run Result := do
  let b ← boolWith rec condition
  match if b then positive else negative with
  | none => return .nothing
  | some a => rec a

/-- A loop of at most `limit` rounds. -/
def loopWith (rec : Ast → Run Result) (condition body : Ast) : Nat → Run Result
  | 0 => unfinished
  | limit + 1 => do
    let b ← boolWith rec condition
    if b then
      let r ← rec body
      match r with
      | .returned n => return .returned n
      | _ => loopWith rec condition body limit
    else return .nothing

def resultWith (rec : Ast → Run Result) (value : Ast) : Run Result := do
  let n ← intWith rec value
  return .returned n

/-- An expression for its effects; a return passes. -/
def statementWith (rec : Ast → Run Result) (value : Ast) : Run Result := do
  let r ← rec value
  match r with
  | .returned n => return .returned n
  | _ => return .nothing

/-- A binary operation, the left operand first and the right one in any case. -/
def operationWith (rec : Ast → Run Result) (left : Ast) (op : String) (right : Ast)
    (span : Option Span) : Run Result :=
  match Operator.ofSymbol? op with
  | none => fault (.unknownOperator op)
  | some o =>
    match o.meaning with
    | .arithmetic f => do
      let a ← intWith rec left
      let b ← intWith rec right
      let n ← ofExcept span (f a b)
      return .int n
    | .comparison f => do
      let a ← intWith rec left
      let b ← intWith rec right
      return .bool (f a b)
    | .logical f => do
      let a ← boolWith rec left
      let b ← boolWith rec right
      return .bool (f a b)

def referenceValue (name : String) (span : Option Span) : Run Result := do
  let v ← value? name
  match v with
  | some n => return .int n
  | none => error (.unset name) span

/-- Parameters declared and set in the innermost frame. -/
def bindParams : List String → List Int → Run Unit
  | x :: xs, n :: ns => do
    let _ ← declare x
    let _ ← set x n
    bindParams xs ns
  | _, _ => pure ()

/-- The integer that a body returned, or 0. -/
def returnedOrZero : Result → Int
  | .returned n => n
  | _ => 0

/-- A function applied to integers, in a frame of its own. -/
def applyWith (rec : Ast → Run Result) (f : Function) (args : List Int) : Run Result := do
  let r ← inFrame (do bindParams f.params args; rec f.body)
  return .int (returnedOrZero r)

/-- A call: of a declared function first, and else of the one that is built in. -/
def callWith (rec : Ast → Run Result) (name : String) (args : List Ast) (span : Option Span) :
    Run Result := do
  let ns ← intsWith rec args
  let found ← function? name
  match found with
  | some f =>
    if f.params.length = ns.length then applyWith rec f ns
    else error (.arity name f.params.length ns.length) span
  | none =>
    let done ← callBuiltin name ns
    if done then return .nothing else error (.unknownFunction name) span

/-- A node, by its kind; a loop takes at most `limit` rounds. -/
def nodeWith (rec : Ast → Run Result) (limit : Nat) : Ast → Run Result
  | .program children _ => programWith rec children
  | .block statements _ => statementsWith rec statements
  | .braced children _ => inFrame (firstWith rec children)
  | .function name params body span => functionStatement name params body span
  | .declaration name initializer span => declarationWith rec name initializer span
  | .assignment name value span => assignmentWith rec name value span
  | .branch condition positive negative _ => branchWith rec condition positive negative
  | .loop condition body _ => loopWith rec condition body limit
  | .result value _ => resultWith rec value
  | .statement value _ => statementWith rec value
  | .operation left op right span => operationWith rec left op right span
  | .parens inner _ => rec inner
  | .literal text span => do return .int (← ofExcept span (literalValue text))
  | .reference name span => referenceValue name span
  | .call name args span => callWith rec name args span
  | .broken _ f _ => fault f.fault
  | .hole f => fault f.fault

end Eval

/-- A node, evaluated in at most `steps` nested steps. -/
def eval : Nat → Ast → Run Result
  | 0, _ => Run.unfinished
  | steps + 1, a => do
    Run.visit a
    Eval.nodeWith (eval steps) steps a

/-- A tree as a program, whatever the kind of its root. -/
def evalProgram (steps : Nat) (tree : Ast) : Run Result :=
  Eval.programWith (eval steps) tree.children

/-- The steps given to a program that is to end. -/
def enoughSteps : Nat := 1000000000000000000

/-- The exit code of a program run from the initial state. -/
def evaluate (steps : Nat) (tracing : Bool) (tree : Ast) : Outcome Int :=
  match evalProgram steps tree (.initial tracing) with
  | .done r s => .done (Eval.returnedOrZero r) s
  | .stopped e s => .stopped e s
  | .unfinished => .unfinished

end Bronti
