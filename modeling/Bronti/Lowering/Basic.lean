import Bronti.Ast.Basic
import Bronti.Lowering.Rejection
import Bronti.Operator

/-!
Lowering: from a parse tree, well formed or not, to the tree that is evaluated. Only the structure
is checked. A node is put together from its value and its parts, each of which can be lowered; the
first defect in the order of the checks ends the lowering.
-/
namespace Bronti

/-- The nodes looked at, newest first, where lowering is traced. -/
structure Inspection where
  tracing : Bool
  nodes : List (String × Datum)

/-- A node looked at as text. -/
def Inspection.display (n : String × Datum) : String :=
  "Analyzing CST node: " ++ n.1 ++ " with value: " ++ n.2.plain

/-- The nodes looked at as lines of text. -/
def Inspection.trace (i : Inspection) : String :=
  String.join (i.nodes.reverse.map fun n => display n ++ "\n")

/-- A lowering: an answer or a defect, and the inspection in either case. -/
def Lowering (α : Type) : Type := Inspection → Except Defect α × Inspection

namespace Lowering

@[inline] protected def pure {α : Type} (a : α) : Lowering α := fun i => (.ok a, i)

@[inline] protected def bind {α β : Type} (m : Lowering α) (f : α → Lowering β) : Lowering β :=
  fun i =>
    match m i with
    | (.ok a, j) => f a j
    | (.error e, j) => (.error e, j)

instance : Monad Lowering where
  pure := Lowering.pure
  bind := Lowering.bind

def fail {α : Type} (d : Defect) : Lowering α := fun i => (.error d, i)

/-- Rejecting the node at a span. -/
def reject {α : Type} (c : Complaint) (span : Option Span) : Lowering α := fail (.rejected ⟨c, span⟩)

def inspect (kind : String) (value : Datum) : Lowering Unit := fun i =>
  (.ok (), if i.tracing then { i with nodes := (kind, value) :: i.nodes } else i)

/-- A part of a node: what it is, and how it is lowered. -/
structure Part where
  datum : Datum
  lowered : Lowering Ast

/-- The kinds of nodes that stand for values. -/
def expressionKinds : List String :=
  ["OPERATION", "PARENTHESIZED", "LITERAL", "IDENTIFIER", "FUNCTION_CALL"]

/-- The number of parts is within bounds. -/
def countWithin (kind : String) (least most : Nat) (parts : List Part) (span : Option Span) :
    Lowering Unit :=
  if least ≤ parts.length ∧ parts.length ≤ most then pure ()
  else reject (.childCount kind least most parts.length) span

/-- A part that is to be of one of some kinds. -/
def ofKind (allowed : List String) (p : Part) : Lowering Ast :=
  match p.datum with
  | .node kind _ _ span =>
    if kind ∈ allowed then p.lowered else reject (.kindOutside allowed kind) span
  | d => fail (.kindOfPlain d)

/-- A part that is to stand for a value. -/
def expression (p : Part) : Lowering Ast := ofKind expressionKinds p

/-- Parts that are to stand for values. -/
def expressions : List Part → Lowering (List Ast)
  | [] => pure []
  | p :: ps => do
    let a ← expression p
    let as ← expressions ps
    return a :: as

def only (kind : String) (parts : List Part) (span : Option Span) : Lowering Part :=
  match parts with
  | [p] => pure p
  | _ => reject (.childCount kind 1 1 parts.length) span

def both (kind : String) (parts : List Part) (span : Option Span) : Lowering (Part × Part) :=
  match parts with
  | [p, q] => pure (p, q)
  | _ => reject (.childCount kind 2 2 parts.length) span

/-- A name, which is not empty. -/
def name (kind : String) (span : Option Span) : Datum → Lowering String
  | .text s => if s.isEmpty then reject (.noName kind) span else pure s
  | _ => reject (.noName kind) span

def names (kind : String) (span : Option Span) : List Datum → Lowering (List String)
  | [] => pure []
  | d :: ds => do
    let s ← name kind span d
    let ss ← names kind span ds
    return s :: ss

def elements (d : Datum) : Lowering (List Datum) :=
  match d.elements? with
  | some ds => pure ds
  | none => fail (.notCollection d)

def every : List Part → Lowering (List Ast)
  | [] => pure []
  | p :: ps => do
    let a ← p.lowered
    let as ← every ps
    return a :: as

def onlyStatements : List Ast → Lowering Unit
  | [] => pure ()
  | a :: as => if a.isExpression then reject .bareExpression a.span else onlyStatements as

/-- A block in a program or in braces. -/
def innerBlock (kind : String) (parts : List Part) (span : Option Span) : Lowering Ast := do
  let p ← only kind parts span
  ofKind ["BLOCK"] p

def block (parts : List Part) (span : Option Span) : Lowering Ast := do
  let as ← every parts
  onlyStatements as
  return .block as span

/-- A function, whose value holds its name and its parameters. -/
def function (value : Datum) (parts : List Part) (span : Option Span) : Lowering Ast :=
  match value with
  | .dict entries => do
    let text ← name "FUNCTION_DEF" span ((Datum.entry? "name" entries).getD .null)
    let ds ← elements ((Datum.entry? "params" entries).getD (.list []))
    let params ← names "FUNCTION_DEF" span ds
    let p ← only "FUNCTION_DEF" parts span
    let body ← ofKind ["BRACED_BLOCK"] p
    return .function text params body span
  | _ => reject .badFunction span

def declaration (value : Datum) (parts : List Part) (span : Option Span) : Lowering Ast := do
  let text ← name "VARIABLE_DECL" span value
  countWithin "VARIABLE_DECL" 0 1 parts span
  match parts with
  | [] => return .declaration text none span
  | p :: _ =>
    let e ← expression p
    return .declaration text (some e) span

def assignment (value : Datum) (parts : List Part) (span : Option Span) : Lowering Ast := do
  let text ← name "ASSIGNMENT" span value
  let p ← only "ASSIGNMENT" parts span
  let e ← expression p
  return .assignment text e span

/-- A branch with or without a second body. -/
def branch (parts : List Part) (span : Option Span) : Lowering Ast :=
  match parts with
  | [c, p] => do
    let condition ← expression c
    let positive ← ofKind ["BRACED_BLOCK"] p
    return .branch condition (some positive) none span
  | [c, p, n] => do
    let condition ← expression c
    let positive ← ofKind ["BRACED_BLOCK"] p
    let negative ← ofKind ["BRACED_BLOCK"] n
    return .branch condition (some positive) (some negative) span
  | _ => reject (.childCount "IF" 2 3 parts.length) span

def loop (parts : List Part) (span : Option Span) : Lowering Ast := do
  let (c, b) ← both "WHILE" parts span
  let condition ← expression c
  let body ← ofKind ["BRACED_BLOCK"] b
  return .loop condition body span

/-- The only part of a node, which stands for a value. -/
def onlyExpression (kind : String) (parts : List Part) (span : Option Span) : Lowering Ast := do
  let p ← only kind parts span
  expression p

def operator (span : Option Span) : Datum → Lowering String
  | .text s => if (Operator.ofSymbol? s).isSome then pure s else reject (.unknownOperator (.text s)) span
  | d => reject (.unknownOperator d) span

def operation (value : Datum) (parts : List Part) (span : Option Span) : Lowering Ast := do
  let op ← operator span value
  let (l, r) ← both "OPERATION" parts span
  let left ← expression l
  let right ← expression r
  return .operation left op right span

def literal (value : Datum) (parts : List Part) (span : Option Span) : Lowering Ast := do
  countWithin "LITERAL" 0 0 parts span
  return .literal value.plain span

def reference (value : Datum) (parts : List Part) (span : Option Span) : Lowering Ast := do
  countWithin "IDENTIFIER" 0 0 parts span
  let text ← name "IDENTIFIER" span value
  return .reference text span

def call (value : Datum) (parts : List Part) (span : Option Span) : Lowering Ast := do
  let text ← name "FUNCTION_CALL" span value
  let args ← expressions parts
  return .call text args span

/-- A node put together by its kind. -/
def assemble (kind : String) (value : Datum) (parts : List Part) (span : Option Span) :
    Lowering Ast :=
  match kind with
  | "PROGRAM" => do return .program [← innerBlock kind parts span] span
  | "BLOCK" => block parts span
  | "BRACED_BLOCK" => do return .braced [← innerBlock kind parts span] span
  | "FUNCTION_DEF" => function value parts span
  | "VARIABLE_DECL" => declaration value parts span
  | "ASSIGNMENT" => assignment value parts span
  | "IF" => branch parts span
  | "WHILE" => loop parts span
  | "RETURN" => do return .result (← onlyExpression kind parts span) span
  | "EXPRESSION_STATEMENT" => do return .statement (← onlyExpression kind parts span) span
  | "OPERATION" => operation value parts span
  | "PARENTHESIZED" => do return .parens (← onlyExpression kind parts span) span
  | "LITERAL" => literal value parts span
  | "IDENTIFIER" => reference value parts span
  | "FUNCTION_CALL" => call value parts span
  | kind => reject (.unknownKind kind) span

end Lowering

open Lowering in
mutual

def lower : Datum → Lowering Ast
  | .node kind value children span => do
    inspect kind value
    assemble kind value (lowerParts children) span
  | d => reject (.notNode d) none

/-- Trees as parts of a node. -/
def lowerParts : List Datum → List Part
  | [] => []
  | d :: ds => ⟨d, lower d⟩ :: lowerParts ds

end

/-- A tree lowered as a whole program; its root is not inspected. -/
def lowerProgram : Datum → Lowering Ast
  | .node kind value children span =>
    if kind = "PROGRAM" then Lowering.assemble kind value (lowerParts children) span
    else Lowering.reject (.notProgram kind) span
  | d => Lowering.fail (.kindOfPlain d)

namespace Lowering

/-- What a lowering comes to, and its trace. -/
def run {α : Type} (tracing : Bool) (m : Lowering α) : Except Defect α × String :=
  let (r, i) := m ⟨tracing, []⟩
  (r, i.trace)

end Lowering

end Bronti
