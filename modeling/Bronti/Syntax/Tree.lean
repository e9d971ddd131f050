import Bronti.Datum.Basic
import Bronti.Operator

/-!
The parse tree. Every node holds the position at which it begins; an operation begins where its
left operand does. `toDatum` is the tree as exchanged and printed.
-/
namespace Bronti.Syntax

open Text (Position)

/-- An expression. -/
inductive Expr
  | literal (text : String) (pos : Position)
  | reference (name : String) (pos : Position)
  | call (name : String) (args : List Expr) (pos : Position)
  | parens (inner : Expr) (pos : Position)
  | operation (left : Expr) (op : Operator) (right : Expr)
deriving Inhabited

mutual

/-- A statement. -/
inductive Stmt
  | function (name : String) (params : List String) (body : Body) (pos : Position)
  | declaration (name : String) (initializer : Option Expr) (pos : Position)
  | loop (condition : Expr) (body : Body) (pos : Position)
  | branch (condition : Expr) (positive : Body) (negative : Option Body) (pos : Position)
  | result (value : Expr) (pos : Position)
  | assignment (name : String) (value : Expr) (pos : Position)
  | expression (value : Expr) (pos : Position)

/-- Statements in braces: the place of the brace, the place of the first statement or of the
closing brace, and the statements. -/
inductive Body
  | braced (brace pos : Position) (statements : List Stmt)

end

/-- A whole program and the place of its first token. -/
structure Program where
  pos : Position
  statements : List Stmt

namespace Expr

def span (file : String) : Expr → Span
  | literal text pos => .ofPosition file pos text
  | reference name pos => .ofPosition file pos name
  | call name _ pos => .ofPosition file pos name
  | parens _ pos => .ofPosition file pos ""
  | operation left _ _ => left.span file

mutual

def toDatum (file : String) : Expr → Datum
  | literal text pos => .node "LITERAL" (.text text) [] (some (.ofPosition file pos text))
  | reference name pos => .node "IDENTIFIER" (.text name) [] (some (.ofPosition file pos name))
  | call name args pos =>
    .node "FUNCTION_CALL" (.text name) (toData file args) (some (.ofPosition file pos name))
  | parens inner pos =>
    .node "PARENTHESIZED" .null [inner.toDatum file] (some (.ofPosition file pos ""))
  | operation left op right =>
    .node "OPERATION" (.text op.symbol) [left.toDatum file, right.toDatum file]
      (some (left.span file))

def toData (file : String) : List Expr → List Datum
  | [] => []
  | e :: es => e.toDatum file :: toData file es

end

end Expr

mutual

def Stmt.toDatum (file : String) : Stmt → Datum
  | .function name params body pos =>
    .node "FUNCTION_DEF" (.dict [("name", .text name), ("params", .list (params.map .text))])
      [body.toDatum file] (some (.ofPosition file pos name))
  | .declaration name initializer pos =>
    .node "VARIABLE_DECL" (.text name) (initializer.toList.map (Expr.toDatum file))
      (some (.ofPosition file pos name))
  | .loop condition body pos =>
    .node "WHILE" .null [condition.toDatum file, body.toDatum file]
      (some (.ofPosition file pos ""))
  | .branch condition positive none pos =>
    .node "IF" .null [condition.toDatum file, positive.toDatum file]
      (some (.ofPosition file pos ""))
  | .branch condition positive (some negative) pos =>
    .node "IF" .null [condition.toDatum file, positive.toDatum file, negative.toDatum file]
      (some (.ofPosition file pos ""))
  | .result value pos =>
    .node "RETURN" .null [value.toDatum file] (some (.ofPosition file pos ""))
  | .assignment name value pos =>
    .node "ASSIGNMENT" (.text name) [value.toDatum file] (some (.ofPosition file pos name))
  | .expression value pos =>
    .node "EXPRESSION_STATEMENT" .null [value.toDatum file] (some (.ofPosition file pos ""))

/-- A braced block as a datum. -/
def Body.toDatum (file : String) : Body → Datum
  | .braced brace pos statements =>
    .node "BRACED_BLOCK" .null
      [.node "BLOCK" .null (Stmt.toData file statements) (some (.ofPosition file pos ""))]
      (some (.ofPosition file brace ""))

def Stmt.toData (file : String) : List Stmt → List Datum
  | [] => []
  | s :: ss => s.toDatum file :: Stmt.toData file ss

end

def Program.toDatum (file : String) (p : Program) : Datum :=
  .node "PROGRAM" .null
    [.node "BLOCK" .null (Stmt.toData file p.statements) (some (.ofPosition file p.pos ""))]
    (some (.ofPosition file p.pos ""))

end Bronti.Syntax
