import Bronti.Span

/-!
Data that trees are made of and exchanged in: plain values, and nodes with a kind, a value,
children and a span. Nothing forces the children of a node to be nodes.
-/
namespace Bronti

/-- A plain value, or a node of a tree. -/
inductive Datum
  | null
  | bool (b : Bool)
  | int (n : Int)
  | text (s : String)
  | list (items : List Datum)
  | dict (entries : List (String × Datum))
  | node (kind : String) (value : Datum) (children : List Datum) (span : Option Span)
deriving Inhabited

namespace Datum

def kind? : Datum → Option String
  | node kind _ _ _ => some kind
  | _ => none

/-- The children of a node; a plain value has none. -/
def children : Datum → List Datum
  | node _ _ children _ => children
  | _ => []

def value : Datum → Datum
  | node _ value _ _ => value
  | d => d

/-- The span of a node that has one. -/
def span? : Datum → Option Span
  | node _ _ _ span => span
  | _ => none

/-- The first entry of a dictionary under a name. -/
def entry? (name : String) : List (String × Datum) → Option Datum
  | [] => none
  | (key, d) :: rest => if key = name then some d else entry? name rest

/-- The elements of a collection: those of a list, the characters of a text, the keys of a
dictionary. -/
def elements? : Datum → Option (List Datum)
  | list items => some items
  | text s => some (s.toList.map fun c => text c.toString)
  | dict entries => some (entries.map fun e => text e.1)
  | _ => none

mutual

/-- A node whose descendants are nodes. -/
def isTree : Datum → Bool
  | node _ _ children _ => allTrees children
  | _ => false

/-- All are nodes whose descendants are nodes. -/
def allTrees : List Datum → Bool
  | [] => true
  | d :: ds => d.isTree && allTrees ds

end

mutual

/-- The nodes of a tree, each before its children. -/
def nodes : Datum → List Datum
  | node kind value children span => node kind value children span :: nodesOfAll children
  | _ => []

/-- The nodes of several trees in order. -/
def nodesOfAll : List Datum → List Datum
  | [] => []
  | d :: ds => d.nodes ++ nodesOfAll ds

end

/-- The nodes of one kind, each before its children. -/
def nodesOfKind (kind : String) (d : Datum) : List Datum :=
  d.nodes.filter fun n => n.kind? = some kind

end Datum

end Bronti
