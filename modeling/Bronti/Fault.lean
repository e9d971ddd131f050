/-!
Faults: why an evaluation cannot go on, be it for a tree that cannot be evaluated or for a state
that is closed too far.
-/
namespace Bronti

/-- What is wrong with a node of a tree: its kind is unknown, it has no children, an entry of its
value is missing, or a value stands where a node, a name or a collection is asked for. -/
inductive Flaw
  | unknownKind (kind : String)
  | noChild
  | missingEntry
  | unfitValue
deriving DecidableEq, Repr, Inhabited

/-- Why an evaluation cannot go on: a flaw of a node, an operator that is unknown, or a state whose
last frame would be closed. -/
inductive Fault
  | unknownKind (kind : String)
  | unknownOperator (symbol : String)
  | noChild
  | missingEntry
  | unfitValue
  | lastFrame
deriving DecidableEq, Repr, Inhabited

/-- The fault of an evaluation that comes to a flaw. -/
def Flaw.fault : Flaw → Fault
  | unknownKind kind => .unknownKind kind
  | noChild => .noChild
  | missingEntry => .missingEntry
  | unfitValue => .unfitValue

end Bronti
