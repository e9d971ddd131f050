import Bronti.Syntax.Grammar
import Mathlib.Data.List.Chain

/-!
Trees as token sequences: the tokens that write a tree, which trees the grammar has, what of a tree
is left when its places are taken away, and how deep it is nested.
-/
namespace Bronti.Syntax

open Text (Position)

/-- A name that is free for programs: no keyword, and of the characters of a word. -/
structure IsName (s : String) : Prop where
  start : ∃ c cs, s.toList = c :: cs ∧ Text.isNameStart c
  chars : ∀ c ∈ s.toList, Text.isNameChar c
  free : ∀ k : Keyword, k.spelling ≠ s

/-- The text of a literal: one decimal digit at least, and nothing else. -/
structure IsLiteral (s : String) : Prop where
  nonempty : s.toList ≠ []
  digits : ∀ c ∈ s.toList, Text.isDigit c

/-- Token sequences with commas between them. -/
def commaSeparated : List (List Token) → List Token
  | [] => []
  | ts :: more => ts ++ more.flatMap fun us => .mark .comma :: us

namespace Expr

mutual

def tokens : Expr → List Token
  | literal text _ => [.literal text]
  | reference name _ => [.name name]
  | call name args _ =>
    .name name :: .mark .openParen :: (commaSeparated (tokensOfEach args) ++ [.mark .closeParen])
  | parens inner _ => .mark .openParen :: (inner.tokens ++ [.mark .closeParen])
  | operation left op right => left.tokens ++ .operator op :: right.tokens

/-- The tokens of each of some expressions. -/
def tokensOfEach : List Expr → List (List Token)
  | [] => []
  | e :: es => e.tokens :: tokensOfEach es

end

mutual

def bare : Expr → Expr
  | literal text _ => literal text .start
  | reference name _ => reference name .start
  | call name args _ => call name (bareEach args) .start
  | parens inner _ => parens inner.bare .start
  | operation left op right => operation left.bare op right.bare

def bareEach : List Expr → List Expr
  | [] => []
  | e :: es => e.bare :: bareEach es

end

mutual

/-- How many levels of nesting the reading of an expression takes. Even an empty list of arguments
is looked for one level further in. -/
def depth : Expr → Nat
  | literal _ _ => 1
  | reference _ _ => 1
  | call _ args _ => 1 + max 1 (depthOfEach args)
  | parens inner _ => 1 + inner.depth
  | operation left _ right => max left.depth right.depth

/-- How many levels the deepest of some expressions takes. -/
def depthOfEach : List Expr → Nat
  | [] => 0
  | e :: es => max e.depth (depthOfEach es)

end

/-- How tightly the outermost operator binds; what has none binds most tightly. -/
def rank : Expr → Nat
  | operation _ op _ => op.level.rank
  | _ => 5

/-- The last token of the expression is a reference to a variable. -/
def endsInReference : Expr → Bool
  | reference .. => true
  | operation _ _ right => right.endsInReference
  | _ => false

/-- The first token of the expression is a parenthesis. -/
def beginsWithParen : Expr → Bool
  | parens .. => true
  | operation left _ _ => left.beginsWithParen
  | _ => false

/-- The expressions of the grammar: the right operand of an operation binds more tightly, and the
left one at least as tightly. -/
inductive WellFormed : Expr → Prop
  | literal {text : String} {pos : Position} (h : IsLiteral text) : WellFormed (.literal text pos)
  | reference {name : String} {pos : Position} (h : IsName name) : WellFormed (.reference name pos)
  | call {name : String} {args : List Expr} {pos : Position} (h : IsName name)
      (inner : ∀ e ∈ args, WellFormed e) : WellFormed (.call name args pos)
  | parens {inner : Expr} {pos : Position} (h : WellFormed inner) : WellFormed (.parens inner pos)
  | operation {left right : Expr} {op : Operator} (hl : WellFormed left) (hr : WellFormed right)
      (loose : op.level.rank ≤ left.rank) (tight : op.level.rank < right.rank) :
      WellFormed (.operation left op right)

theorem tokens_of_each (es : List Expr) : tokensOfEach es = es.map tokens := by
  induction es with
  | nil => rfl
  | cons e es ih => simp [tokensOfEach, ih]

theorem bare_of_each (es : List Expr) : bareEach es = es.map bare := by
  induction es with
  | nil => rfl
  | cons e es ih => simp [bareEach, ih]

theorem depth_le_each {e : Expr} {es : List Expr} (h : e ∈ es) : e.depth ≤ depthOfEach es := by
  induction es with
  | nil => cases h
  | cons d es ih =>
    simp only [depthOfEach]
    rcases List.mem_cons.mp h with rfl | hm
    · exact Nat.le_max_left _ _
    · exact Nat.le_trans (ih hm) (Nat.le_max_right _ _)

theorem depth_pos (e : Expr) : 0 < e.depth := by
  match e with
  | literal _ _ | reference _ _ => simp only [depth]; omega
  | call _ _ _ | parens _ _ => simp only [depth]; omega
  | operation left _ right =>
    have hl := left.depth_pos
    simp only [depth]
    omega

end Expr

mutual

def Stmt.tokens : Stmt → List Token
  | .function name params body _ =>
    .keyword .function :: .name name :: .mark .openParen ::
      (commaSeparated (params.map fun p => [.name p]) ++ .mark .closeParen :: body.tokens)
  | .declaration name none _ => [.keyword .var, .name name]
  | .declaration name (some e) _ => .keyword .var :: .name name :: .mark .assign :: e.tokens
  | .loop condition body _ =>
    .keyword .loop :: .mark .openParen :: (condition.tokens ++ .mark .closeParen :: body.tokens)
  | .branch condition positive none _ =>
    .keyword .branch :: .mark .openParen ::
      (condition.tokens ++ .mark .closeParen :: positive.tokens)
  | .branch condition positive (some negative) _ =>
    .keyword .branch :: .mark .openParen ::
      (condition.tokens ++ .mark .closeParen ::
        (positive.tokens ++ .keyword .otherwise :: negative.tokens))
  | .result value _ => .keyword .result :: value.tokens
  | .assignment name value _ => .name name :: .mark .assign :: value.tokens
  | .expression value _ => value.tokens

/-- The tokens of a braced block. -/
def Body.tokens : Body → List Token
  | .braced _ _ statements =>
    .mark .openBrace :: (Stmt.tokensOfAll statements ++ [.mark .closeBrace])

/-- The tokens of statements, one after another. -/
def Stmt.tokensOfAll : List Stmt → List Token
  | [] => []
  | s :: ss => s.tokens ++ Stmt.tokensOfAll ss

end

mutual

def Stmt.bare : Stmt → Stmt
  | .function name params body _ => .function name params body.bare .start
  | .declaration name initializer _ => .declaration name (initializer.map Expr.bare) .start
  | .loop condition body _ => .loop condition.bare body.bare .start
  | .branch condition positive none _ => .branch condition.bare positive.bare none .start
  | .branch condition positive (some negative) _ =>
    .branch condition.bare positive.bare (some negative.bare) .start
  | .result value _ => .result value.bare .start
  | .assignment name value _ => .assignment name value.bare .start
  | .expression value _ => .expression value.bare .start

/-- A braced block without its places. -/
def Body.bare : Body → Body
  | .braced _ _ statements => .braced .start .start (Stmt.bareEach statements)

def Stmt.bareEach : List Stmt → List Stmt
  | [] => []
  | s :: ss => s.bare :: Stmt.bareEach ss

end

mutual

/-- How many levels of nesting the reading of a statement takes. -/
def Stmt.depth : Stmt → Nat
  | .function _ _ body _ => 1 + body.depth
  | .declaration _ none _ => 1
  | .declaration _ (some e) _ => 1 + e.depth
  | .loop condition body _ => 1 + max condition.depth body.depth
  | .branch condition positive none _ => 1 + max condition.depth positive.depth
  | .branch condition positive (some negative) _ =>
    1 + max condition.depth (max positive.depth negative.depth)
  | .result value _ => 1 + value.depth
  | .assignment _ value _ => 1 + value.depth
  | .expression value _ => 1 + value.depth

/-- How many levels a braced block takes. Before its closing brace a statement is looked for, and in
it an expression. -/
def Body.depth : Body → Nat
  | .braced _ _ statements => max 2 (Stmt.depthOfEach statements)

/-- How many levels the deepest of some statements takes. -/
def Stmt.depthOfEach : List Stmt → Nat
  | [] => 0
  | s :: ss => max s.depth (Stmt.depthOfEach ss)

end

namespace Stmt

/-- The last token of the statement is a reference to a variable. -/
def endsInReference : Stmt → Bool
  | declaration _ (some e) _ => e.endsInReference
  | result value _ => value.endsInReference
  | assignment _ value _ => value.endsInReference
  | expression value _ => value.endsInReference
  | _ => false

/-- The first token of the statement is a parenthesis. -/
def beginsWithParen : Stmt → Bool
  | expression value _ => value.beginsWithParen
  | _ => false

/-- Two statements that do not run into each other: a reference and a parenthesis behind it would
be read as a call. -/
def Parted (s t : Stmt) : Prop := ¬ (s.endsInReference = true ∧ t.beginsWithParen = true)

end Stmt

mutual

/-- The statements of the grammar. -/
inductive Stmt.WellFormed : Stmt → Prop
  | function {name : String} {params : List String} {body : Body} {pos : Position} (h : IsName name)
      (hp : ∀ p ∈ params, IsName p) (hb : Body.WellFormed body) :
      Stmt.WellFormed (.function name params body pos)
  | declaration {name : String} {initializer : Option Expr} {pos : Position} (h : IsName name)
      (he : ∀ e ∈ initializer, e.WellFormed) : Stmt.WellFormed (.declaration name initializer pos)
  | loop {condition : Expr} {body : Body} {pos : Position} (hc : condition.WellFormed)
      (hb : Body.WellFormed body) : Stmt.WellFormed (.loop condition body pos)
  | branch {condition : Expr} {positive : Body} {negative : Option Body} {pos : Position}
      (hc : condition.WellFormed) (hp : Body.WellFormed positive)
      (hn : ∀ b ∈ negative, Body.WellFormed b) :
      Stmt.WellFormed (.branch condition positive negative pos)
  | result {value : Expr} {pos : Position} (h : value.WellFormed) :
      Stmt.WellFormed (.result value pos)
  | assignment {name : String} {value : Expr} {pos : Position} (h : IsName name)
      (he : value.WellFormed) : Stmt.WellFormed (.assignment name value pos)
  | expression {value : Expr} {pos : Position} (h : value.WellFormed) :
      Stmt.WellFormed (.expression value pos)

/-- The braced blocks of the grammar. -/
inductive Body.WellFormed : Body → Prop
  | braced {brace pos : Position} {statements : List Stmt}
      (h : ∀ s ∈ statements, Stmt.WellFormed s) : Body.WellFormed (.braced brace pos statements)

end

mutual

/-- In every block of a statement, the statements are parted. -/
inductive Stmt.Apart : Stmt → Prop
  | function {name : String} {params : List String} {body : Body} {pos : Position}
      (h : Body.Apart body) : Stmt.Apart (.function name params body pos)
  | declaration {name : String} {initializer : Option Expr} {pos : Position} :
      Stmt.Apart (.declaration name initializer pos)
  | loop {condition : Expr} {body : Body} {pos : Position} (h : Body.Apart body) :
      Stmt.Apart (.loop condition body pos)
  | branch {condition : Expr} {positive : Body} {negative : Option Body} {pos : Position}
      (hp : Body.Apart positive) (hn : ∀ b ∈ negative, Body.Apart b) :
      Stmt.Apart (.branch condition positive negative pos)
  | result {value : Expr} {pos : Position} : Stmt.Apart (.result value pos)
  | assignment {name : String} {value : Expr} {pos : Position} :
      Stmt.Apart (.assignment name value pos)
  | expression {value : Expr} {pos : Position} : Stmt.Apart (.expression value pos)

/-- In a block and in every block inside it, the statements are parted. -/
inductive Body.Apart : Body → Prop
  | braced {brace pos : Position} {statements : List Stmt}
      (h : statements.IsChain Stmt.Parted) (inner : ∀ s ∈ statements, Stmt.Apart s) :
      Body.Apart (.braced brace pos statements)

end

namespace Stmt

theorem tokens_of_all (ss : List Stmt) : tokensOfAll ss = ss.flatMap tokens := by
  induction ss with
  | nil => rfl
  | cons s ss ih => simp [tokensOfAll, ih]

theorem bare_of_each (ss : List Stmt) : bareEach ss = ss.map bare := by
  induction ss with
  | nil => rfl
  | cons s ss ih => simp [bareEach, ih]

theorem depth_le_each {s : Stmt} {ss : List Stmt} (h : s ∈ ss) : s.depth ≤ depthOfEach ss := by
  induction ss with
  | nil => cases h
  | cons t ss ih =>
    simp only [depthOfEach]
    rcases List.mem_cons.mp h with rfl | hm
    · exact Nat.le_max_left _ _
    · exact Nat.le_trans (ih hm) (Nat.le_max_right _ _)

/-- The tokens behind the name of a declaration. -/
def tokensOfInitializer : Option Expr → List Token
  | none => []
  | some e => .mark .assign :: e.tokens

/-- The tokens behind the first block of a branch. -/
def tokensOfNegative : Option Body → List Token
  | none => []
  | some b => .keyword .otherwise :: b.tokens

theorem tokens_declaration (name : String) (initializer : Option Expr) (pos : Position) :
    (declaration name initializer pos).tokens =
      .keyword .var :: .name name :: tokensOfInitializer initializer := by
  cases initializer <;> rfl

theorem tokens_branch (condition : Expr) (positive : Body) (negative : Option Body)
    (pos : Position) :
    (branch condition positive negative pos).tokens =
      .keyword .branch :: .mark .openParen :: (condition.tokens ++
        .mark .closeParen :: (positive.tokens ++ tokensOfNegative negative)) := by
  cases negative <;> simp [tokens, tokensOfNegative]

theorem bare_branch (condition : Expr) (positive : Body) (negative : Option Body)
    (pos : Position) :
    (branch condition positive negative pos).bare =
      branch condition.bare positive.bare (negative.map Body.bare) .start := by
  cases negative <;> rfl

theorem depth_declaration {name : String} {initializer : Option Expr} {pos : Position} {e : Expr}
    (h : e ∈ initializer) : (declaration name initializer pos).depth = 1 + e.depth := by
  cases h
  rfl

/-- A branch is nested deeper than its condition and its blocks. -/
theorem depth_branch (condition : Expr) (positive : Body) (negative : Option Body)
    (pos : Position) :
    condition.depth < (branch condition positive negative pos).depth ∧
      positive.depth < (branch condition positive negative pos).depth ∧
      ∀ b ∈ negative, b.depth < (branch condition positive negative pos).depth := by
  cases negative with
  | none =>
    simp only [depth]
    exact ⟨by omega, by omega, by simp⟩
  | some b =>
    simp only [depth, Option.mem_some_iff]
    refine ⟨by omega, by omega, ?_⟩
    rintro b rfl
    omega

theorem depth_pos (s : Stmt) : 0 < s.depth := by
  cases s with
  | declaration name initializer pos => cases initializer <;> simp only [depth] <;> omega
  | branch condition positive negative pos => cases negative <;> simp only [depth] <;> omega
  | _ => simp only [depth]; omega

end Stmt

namespace Program

def tokens (p : Program) : List Token := Stmt.tokensOfAll p.statements

def bare (p : Program) : Program := ⟨.start, Stmt.bareEach p.statements⟩

/-- How many levels of nesting the reading of a program takes. -/
def depth (p : Program) : Nat := Stmt.depthOfEach p.statements

def WellFormed (p : Program) : Prop := ∀ s ∈ p.statements, s.WellFormed

/-- In every block of a program, the statements are parted. -/
def Apart (p : Program) : Prop :=
  p.statements.IsChain Stmt.Parted ∧ ∀ s ∈ p.statements, s.Apart

end Program

end Bronti.Syntax
