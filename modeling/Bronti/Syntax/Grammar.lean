import Bronti.Syntax.Cursor
import Bronti.Syntax.Tree

/-!
The grammar, as readings of lexemes. What follows a name or opens a parenthesis decides which
construct is read; a call or an assignment that breaks off is taken back to the name it began with.
Every parenthesis, call and braced block spends one of a fixed number of levels.
-/
namespace Bronti.Syntax

open Parse

def callWith (inner : Parse Expr) : Parse Expr := do
  let pos ← here
  let callee ← name
  mark .openParen
  let args ← commaList inner
  mark .closeParen
  return .call callee args pos

def reference : Parse Expr := do
  let pos ← here
  let text ← name
  return .reference text pos

def parensWith (inner : Parse Expr) : Parse Expr := do
  let pos ← start
  mark .openParen
  let e ← inner
  mark .closeParen
  return .parens e pos

/-- An operand of the tightest operators; `inner` reads the expressions inside it. -/
def atomWith (inner : Parse Expr) : Parse Expr := fun c =>
  match c.token? with
  | some (.name _) => orElse (callWith inner) reference c
  | some (.literal text) => .ok (.literal text c.start) c.skip
  | some (.mark .openParen) => parensWith inner c
  | _ => fail .construct c

/-- An operator of a level and its right operand. -/
def operationWith (l : Operator.Level) (operand : Parse Expr) : Parse (Operator × Expr) := do
  let op ← operator l
  let right ← operand
  return (op, right)

/-- An operand and the operations of a level that follow it, from the left. -/
def levelWith (l : Operator.Level) (operand : Parse Expr) : Parse Expr := do
  let first ← operand
  let rest ← many (operationWith l operand)
  return rest.foldl (fun left r => .operation left r.1 r.2) first

/-- An expression; `inner` reads the expressions inside its operands. -/
def expressionWith (inner : Parse Expr) : Parse Expr :=
  levelWith .disjunction <| levelWith .conjunction <| levelWith .comparison <|
    levelWith .sum <| levelWith .product <| atomWith inner

/-- An expression nested at most `depth` levels. -/
def expression : Nat → Parse Expr
  | 0 => tooDeep
  | depth + 1 => expressionWith (expression depth)

def bodyWith (statement : Parse Stmt) : Parse Body := do
  let brace ← start
  mark .openBrace
  let pos ← start
  readGap
  let statements ← many statement
  mark .closeBrace
  return .braced brace pos statements

def functionWith (statement : Parse Stmt) : Parse Stmt := do
  let pos ← start
  keyword .function
  let text ← name
  mark .openParen
  let params ← commaList name
  mark .closeParen
  let body ← bodyWith statement
  return .function text params body pos

def declarationWith (expression : Parse Expr) : Parse Stmt := do
  let pos ← start
  keyword .var
  let text ← name
  let initializer ← optional (do mark .assign; expression)
  return .declaration text initializer pos

def conditionWith (expression : Parse Expr) : Parse Expr := do
  mark .openParen
  let e ← expression
  mark .closeParen
  return e

def loopWith (expression : Parse Expr) (statement : Parse Stmt) : Parse Stmt := do
  let pos ← start
  keyword .loop
  let condition ← conditionWith expression
  let body ← bodyWith statement
  return .loop condition body pos

def branchWith (expression : Parse Expr) (statement : Parse Stmt) : Parse Stmt := do
  let pos ← start
  keyword .branch
  let condition ← conditionWith expression
  let positive ← bodyWith statement
  let negative ← optional (do keyword .otherwise; bodyWith statement)
  return .branch condition positive negative pos

def resultWith (expression : Parse Expr) : Parse Stmt := do
  let pos ← start
  keyword .result
  let e ← expression
  return .result e pos

def assignmentWith (expression : Parse Expr) : Parse Stmt := do
  let pos ← here
  let text ← name
  mark .assign
  let e ← expression
  return .assignment text e pos

def expressionStatementWith (expression : Parse Expr) : Parse Stmt := do
  let pos ← here
  let e ← expression
  return .expression e pos

/-- A statement; `expression` and `statement` read the parts inside it. -/
def statementWith (expression : Parse Expr) (statement : Parse Stmt) : Parse Stmt := fun c =>
  match c.token? with
  | some (.keyword .function) => functionWith statement c
  | some (.keyword .var) => declarationWith expression c
  | some (.keyword .loop) => loopWith expression statement c
  | some (.keyword .branch) => branchWith expression statement c
  | some (.keyword .result) => resultWith expression c
  | _ => orElse (assignmentWith expression) (expressionStatementWith expression) c

/-- A statement nested at most `depth` levels. -/
def statement : Nat → Parse Stmt
  | 0 => tooDeep
  | depth + 1 => statementWith (expression depth) (statement depth)

/-- A program nested at most `depth` levels. -/
def program (depth : Nat) : Parse Program := do
  let pos ← start
  readGap
  let statements ← many (statement depth)
  endOfText
  return ⟨pos, statements⟩

/-- A reading that the end of the text follows. -/
def complete {α : Type} (p : Parse α) : Parse α := do
  let a ← p
  endOfText
  return a

/-- How deep parentheses, calls and blocks may be nested. -/
def maxDepth : Nat := 100

/-- Why a text is not read. -/
inductive Refusal
  | failed (f : Failure)
  | tooDeep
deriving DecidableEq, Repr

/-- What a reading makes of a text, whose tabs are expanded first. -/
def read {α : Type} (p : Parse α) (text : String) : Except Refusal α :=
  match p (Cursor.ofText (Text.expandTabs text.toList)) with
  | .ok a _ => .ok a
  | .failed f => .error (.failed f)
  | .tooDeep => .error .tooDeep

/-- The program that a text is. -/
def readProgram (text : String) : Except Refusal Program := read (program maxDepth) text

/-- The statement that a text is. -/
def readStatement (text : String) : Except Refusal Stmt := read (complete (statement maxDepth)) text

/-- The expression that a text is. -/
def readExpression (text : String) : Except Refusal Expr :=
  read (complete (expression maxDepth)) text

end Bronti.Syntax
