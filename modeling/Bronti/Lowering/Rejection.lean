import Bronti.Datum.Display

/-!
Why a parse tree is not lowered.
-/
namespace Bronti

/-- What is wrong with a node. -/
inductive Complaint
  | notNode (d : Datum)
  | unknownKind (kind : String)
  | notProgram (kind : String)
  | childCount (kind : String) (least most actual : Nat)
  | noName (kind : String)
  | kindOutside (allowed : List String) (kind : String)
  | bareExpression
  | badFunction
  | unknownOperator (d : Datum)

def Complaint.message : Complaint → String
  | notNode d => "Unable to analyze " ++ d.quoted
  | unknownKind kind => "Unknown node type: " ++ kind
  | notProgram kind => "Expected PROGRAM at the root, got " ++ kind
  | childCount kind least most actual => s!"{kind} expects {least}..{most} children, got {actual}"
  | noName kind => kind ++ " requires a name"
  | kindOutside allowed kind => "Expected one of " ++ ", ".intercalate allowed ++ ", got " ++ kind
  | bareExpression => "Bare expression where a statement is expected"
  | badFunction => "Invalid function definition structure"
  | unknownOperator d => "Unknown operator: " ++ d.plain

/-- A complaint about the node at a span. -/
structure Rejection where
  complaint : Complaint
  span : Option Span

def Rejection.render (r : Rejection) : String :=
  match r.span with
  | some s => "Semantics error at " ++ s.place ++ ": " ++ r.complaint.message
  | none => "Semantics error: " ++ r.complaint.message

/-- Why lowering breaks off: a rejection, a plain value whose kind is asked for, or parameters that
are no collection. -/
inductive Defect
  | rejected (r : Rejection)
  | kindOfPlain (d : Datum)
  | notCollection (d : Datum)

end Bronti
