import Bronti.Ast.Basic
import Bronti.Datum.Display
import Bronti.Names
import Bronti.Numbered

/-!
The lowered tree as data. A record holds the parts of a node twice: among its children, and in its
value as references to them by number. Every record is read as a node; what it lacks, or holds in
the wrong shape, becomes a defect of the node at the place where evaluation comes to it.
-/
namespace Bronti

namespace Datum

/-- A reference to a child by number. -/
def child (i : Nat) : Datum := .dict [("child", .int i)]

/-- The number of the child that is referred to. -/
def child? : Datum → Option Int
  | .dict [(key, .int n)] => if key = "child" then some n else none
  | _ => none

mutual

/-- A value with the children in the place of the references to them. -/
def embedValue (children : List Datum) : Datum → Datum
  | list items => list (embedValues children items)
  | dict entries =>
    match child? (dict entries) with
    | some i => (numbered? children i).getD null
    | none => dict (embedEntries children entries)
  | d => d

/-- Values with the children in the place of the references to them. -/
def embedValues (children : List Datum) : List Datum → List Datum
  | [] => []
  | d :: ds => embedValue children d :: embedValues children ds

/-- Entries with the children in the place of the references to them. -/
def embedEntries (children : List Datum) : List (String × Datum) → List (String × Datum)
  | [] => []
  | (key, d) :: rest => (key, embedValue children d) :: embedEntries children rest

end

mutual

/-- A record with the children in the place of the references to them, at every node. -/
def embed : Datum → Datum
  | node kind value children span =>
    let cs := embedAll children
    node kind (embedValue cs value) cs span
  | d => d

/-- Records with the children in the place of the references to them, at every node. -/
def embedAll : List Datum → List Datum
  | [] => []
  | d :: ds => embed d :: embedAll ds

end

/-- References to the children from a number on. -/
def childrenFrom (i n : Nat) : List Datum := (List.range' i n).map child

end Datum

namespace Ast

/-- The value of a record, with references to the children. -/
def recordValue : Ast → Datum
  | function name params _ _ =>
    .dict [("name", .text name), ("params", .list (params.map .text)), ("body", .child 0)]
  | declaration name initializer _ =>
    .dict [("name", .text name),
      ("initializer", if initializer.isSome then .child 0 else .null)]
  | assignment name _ _ => .dict [("name", .text name), ("expression", .child 0)]
  | branch _ positive negative _ =>
    .dict [("condition", .child 0),
      ("then", if positive.isSome then .child 1 else .null),
      ("else", if negative.isSome then .child (1 + positive.toList.length) else .null)]
  | loop _ _ _ => .dict [("condition", .child 0), ("body", .child 1)]
  | result _ _ => .dict [("expression", .child 0)]
  | statement _ _ => .dict [("expression", .child 0)]
  | operation _ op _ _ => .dict [("left", .child 0), ("op", .text op), ("right", .child 1)]
  | parens _ _ => .dict [("expression", .child 0)]
  | literal text _ => .text text
  | reference name _ => .text name
  | call name args _ =>
    .dict [("name", .text name), ("args", .list (Datum.childrenFrom 0 args.length))]
  | _ => .null

mutual

def record : Ast → Datum
  | program cs s => .node "PROGRAM" .null (records cs) s
  | block cs s => .node "BLOCK" .null (records cs) s
  | braced cs s => .node "BRACED_BLOCK" .null (records cs) s
  | function name params body s =>
    .node "FUNCTION_DEF" (recordValue (function name params body s)) [record body] s
  | declaration name initializer s =>
    .node "VARIABLE_DECL" (recordValue (declaration name initializer s)) (recordOption initializer) s
  | assignment name value s =>
    .node "ASSIGNMENT" (recordValue (assignment name value s)) [record value] s
  | branch c p n s =>
    .node "IF" (recordValue (branch c p n s)) (record c :: (recordOption p ++ recordOption n)) s
  | loop c b s => .node "WHILE" (recordValue (loop c b s)) [record c, record b] s
  | result value s => .node "RETURN" (recordValue (result value s)) [record value] s
  | statement value s =>
    .node "EXPRESSION_STATEMENT" (recordValue (statement value s)) [record value] s
  | operation left op right s =>
    .node "OPERATION" (recordValue (operation left op right s)) [record left, record right] s
  | parens inner s => .node "PARENTHESIZED" (recordValue (parens inner s)) [record inner] s
  | literal text s => .node "LITERAL" (.text text) [] s
  | reference name s => .node "IDENTIFIER" (.text name) [] s
  | call name args s =>
    .node "FUNCTION_CALL" (recordValue (call name args s)) (records args) s
  | broken kind _ s => .node kind .null [] s
  | hole _ => .null

def records : List Ast → List Datum
  | [] => []
  | a :: as => record a :: records as

/-- The record of a node that may be missing. -/
def recordOption : Option Ast → List Datum
  | none => []
  | some a => [record a]

end

/-- The entry of a value under a name. -/
def entryOf (name : String) (value : Datum) : Except Flaw Datum :=
  match value with
  | .dict entries =>
    match Datum.entry? name entries with
    | some d => .ok d
    | none => .error .missingEntry
  | _ => .error .unfitValue

/-- A name: a text, or another scalar in its plain form. -/
def nameOf (d : Datum) : Except Flaw String :=
  match d with
  | .text s => .ok s
  | .null => .ok d.plain
  | .bool _ => .ok d.plain
  | .int _ => .ok d.plain
  | _ => .error .unfitValue

/-- The name in a value under a name. -/
def nameUnder (name : String) (value : Datum) : Except Flaw String := do
  let d ← entryOf name value
  nameOf d

def elementsOf (d : Datum) : Except Flaw (List Datum) :=
  match d.elements? with
  | some ds => .ok ds
  | none => .error .unfitValue

/-- The child that a value refers to. -/
def partOf (cs : List Ast) (d : Datum) : Ast :=
  match Datum.child? d with
  | some i => (numbered? cs i).getD (hole .noChild)
  | none =>
    match d with
    | .dict _ => hole .missingEntry
    | _ => hole .unfitValue

/-- The child that the entry under a name refers to. -/
def partUnder (name : String) (cs : List Ast) (value : Datum) : Ast :=
  match entryOf name value with
  | .ok d => partOf cs d
  | .error f => hole f

/-- The child that the entry under a name refers to, unless that entry is null. -/
def optionUnder (name : String) (cs : List Ast) (value : Datum) : Option Ast :=
  match entryOf name value with
  | .ok .null => none
  | .ok d => some (partOf cs d)
  | .error f => some (hole f)

/-- The declaration of a function. Repeated parameters are found before the body or the name is
looked at. -/
def functionOf (value : Datum) (cs : List Ast) (s : Option Span) : Except Flaw Ast := do
  let name ← entryOf "name" value
  let params ← entryOf "params" value
  let ds ← elementsOf params
  let xs ← ds.mapM nameOf
  if (repeated xs).isEmpty then
    let body ← entryOf "body" value
    let text ← nameOf name
    return function text xs (partOf cs body) s
  else return function name.plain xs (hole .missingEntry) s

def declarationOf (value : Datum) (cs : List Ast) (s : Option Span) : Except Flaw Ast := do
  let name ← nameUnder "name" value
  return declaration name (optionUnder "initializer" cs value) s

def assignmentOf (value : Datum) (cs : List Ast) (s : Option Span) : Except Flaw Ast := do
  let name ← nameUnder "name" value
  return assignment name (partUnder "expression" cs value) s

/-- A binary operation; what is no text spells no operator. -/
def operationOf (value : Datum) (cs : List Ast) (s : Option Span) : Except Flaw Ast := do
  let op ← nameUnder "op" value
  return operation (partUnder "left" cs value) op (partUnder "right" cs value) s

/-- A call. A name is looked up after the arguments, so that one which is no name counts as an
argument more, and a defective one. -/
def callOf (value : Datum) (cs : List Ast) (s : Option Span) : Except Flaw Ast := do
  let name ← entryOf "name" value
  let args ← entryOf "args" value
  let ds ← elementsOf args
  let parts := ds.map (partOf cs)
  return match nameOf name with
    | .ok text => call text parts s
    | .error f => call name.plain (parts ++ [hole f]) s

/-- A literal, which may be given as a number. -/
def literalOf (value : Datum) (s : Option Span) : Except Flaw Ast :=
  match value with
  | .text text => .ok (literal text s)
  | .int n => .ok (literal (toString n) s)
  | .bool b => .ok (literal (if b then "1" else "0") s)
  | _ => .error .unfitValue

def referenceOf (value : Datum) (s : Option Span) : Except Flaw Ast := do
  let name ← nameOf value
  return reference name s

/-- A node, broken where its value does not fit. -/
def orBroken (kind : String) (s : Option Span) : Except Flaw Ast → Ast
  | .ok a => a
  | .error f => broken kind f s

/-- The node of a record with the given children. -/
def ofParts (kind : String) (value : Datum) (cs : List Ast) (s : Option Span) : Ast :=
  match kind with
  | "PROGRAM" => program cs s
  | "BLOCK" => block cs s
  | "BRACED_BLOCK" => braced cs s
  | "FUNCTION_DEF" => orBroken kind s (functionOf value cs s)
  | "VARIABLE_DECL" => orBroken kind s (declarationOf value cs s)
  | "ASSIGNMENT" => orBroken kind s (assignmentOf value cs s)
  | "IF" =>
    branch (partUnder "condition" cs value) (optionUnder "then" cs value)
      (optionUnder "else" cs value) s
  | "WHILE" => loop (partUnder "condition" cs value) (partUnder "body" cs value) s
  | "RETURN" => result (partUnder "expression" cs value) s
  | "EXPRESSION_STATEMENT" => statement (partUnder "expression" cs value) s
  | "OPERATION" => orBroken kind s (operationOf value cs s)
  | "PARENTHESIZED" => parens (partUnder "expression" cs value) s
  | "LITERAL" => orBroken kind s (literalOf value s)
  | "IDENTIFIER" => orBroken kind s (referenceOf value s)
  | "FUNCTION_CALL" => orBroken kind s (callOf value cs s)
  | kind => broken kind (.unknownKind kind) s

mutual

/-- The node of a record; a value that is no record is a hole. -/
def ofRecord : Datum → Ast
  | .node kind value children s => ofParts kind value (ofRecords children) s
  | .dict _ => hole .missingEntry
  | _ => hole .unfitValue

def ofRecords : List Datum → List Ast
  | [] => []
  | d :: ds => ofRecord d :: ofRecords ds

end

/-- A record as a program, of which only the children count, whatever its kind and its value. -/
def programOfRecord : Datum → Ast
  | .node _ _ children s => program (ofRecords children) s
  | d => program [ofRecord d] none

end Ast

end Bronti
