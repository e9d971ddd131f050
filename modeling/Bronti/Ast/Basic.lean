import Bronti.Fault
import Bronti.Span

/-!
The lowered tree, which the evaluator walks. Any node may stand in any place, and a tree that was
not made by lowering may be defective: a broken node has a kind, but its value fits no node of that
kind, and a hole is a place where a node is asked for and none is. A defect counts only once the
evaluation comes to it.
-/
namespace Bronti

/-- A node of the lowered tree. -/
inductive Ast
  | program (children : List Ast) (span : Option Span)
  | block (statements : List Ast) (span : Option Span)
  | braced (children : List Ast) (span : Option Span)
  | function (name : String) (params : List String) (body : Ast) (span : Option Span)
  | declaration (name : String) (initializer : Option Ast) (span : Option Span)
  | assignment (name : String) (value : Ast) (span : Option Span)
  | branch (condition : Ast) (positive negative : Option Ast) (span : Option Span)
  | loop (condition body : Ast) (span : Option Span)
  | result (value : Ast) (span : Option Span)
  | statement (value : Ast) (span : Option Span)
  | operation (left : Ast) (op : String) (right : Ast) (span : Option Span)
  | parens (inner : Ast) (span : Option Span)
  | literal (text : String) (span : Option Span)
  | reference (name : String) (span : Option Span)
  | call (name : String) (args : List Ast) (span : Option Span)
  | broken (kind : String) (flaw : Flaw) (span : Option Span)
  | hole (flaw : Flaw)
deriving Inhabited

namespace Ast

/-- The name of the kind of a node; a hole has none. -/
def kind : Ast → String
  | program .. => "PROGRAM"
  | block .. => "BLOCK"
  | braced .. => "BRACED_BLOCK"
  | function .. => "FUNCTION_DEF"
  | declaration .. => "VARIABLE_DECL"
  | assignment .. => "ASSIGNMENT"
  | branch .. => "IF"
  | loop .. => "WHILE"
  | result .. => "RETURN"
  | statement .. => "EXPRESSION_STATEMENT"
  | operation .. => "OPERATION"
  | parens .. => "PARENTHESIZED"
  | literal .. => "LITERAL"
  | reference .. => "IDENTIFIER"
  | call .. => "FUNCTION_CALL"
  | broken kind _ _ => kind
  | hole _ => ""

def span : Ast → Option Span
  | program _ s => s
  | block _ s => s
  | braced _ s => s
  | function _ _ _ s => s
  | declaration _ _ s => s
  | assignment _ _ s => s
  | branch _ _ _ s => s
  | loop _ _ s => s
  | result _ s => s
  | statement _ s => s
  | operation _ _ _ s => s
  | parens _ s => s
  | literal _ s => s
  | reference _ s => s
  | call _ _ s => s
  | broken _ _ s => s
  | hole _ => none

/-- The nodes inside a node, in order. -/
def children : Ast → List Ast
  | program cs _ => cs
  | block cs _ => cs
  | braced cs _ => cs
  | function _ _ body _ => [body]
  | declaration _ initializer _ => initializer.toList
  | assignment _ value _ => [value]
  | branch condition positive negative _ => condition :: (positive.toList ++ negative.toList)
  | loop condition body _ => [condition, body]
  | result value _ => [value]
  | statement value _ => [value]
  | operation left _ right _ => [left, right]
  | parens inner _ => [inner]
  | literal _ _ => []
  | reference _ _ => []
  | call _ args _ => args
  | broken _ _ _ => []
  | hole _ => []

/-- A node, and not a place where one is missing. -/
def isNode : Ast → Bool
  | hole _ => false
  | _ => true

/-- A node that stands for a value. -/
def isExpression : Ast → Bool
  | operation .. => true
  | parens .. => true
  | literal .. => true
  | reference .. => true
  | call .. => true
  | _ => false

end Ast

end Bronti
