import Bronti.Proofs.Piecewise
import Bronti.Proofs.Places

/-!
The nodes of a parse tree, each before its children, with the tokens that stand before it and those
that write it. They are the nodes of the tree as exchanged.
-/
namespace Bronti.Syntax

open Text (Position)

/-- A node: its kind, its place, the tokens before it in the program and its own tokens. A node that
lags may begin behind the token before it; any other begins at its own first token. -/
structure Node where
  kind : String
  pos : Position
  before : List Token
  tokens : List Token
  lags : Bool
deriving Repr

namespace Expr

def pos : Expr → Position
  | literal _ pos => pos
  | reference _ pos => pos
  | call _ _ pos => pos
  | parens _ pos => pos
  | operation left _ _ => left.pos

/-- The expression begins with a name, before which nothing reads the gap. -/
def lags : Expr → Bool
  | literal .. => false
  | reference .. => true
  | call .. => true
  | parens .. => false
  | operation left _ _ => left.lags

/-- How many operations end together with an expression: it may be one, its right operand another,
and so on. -/
def trailing : Expr → Nat
  | operation _ _ right => right.trailing + 1
  | _ => 0

/-- At every level an operation ends with the expression, so that at none of them an operator was
looked for behind it in vain. -/
def leavesGap (e : Expr) : Bool := e.trailing == 5

mutual

def nodes (before : List Token) : Expr → List Node
  | literal text pos => [⟨"LITERAL", pos, before, [.literal text], false⟩]
  | reference name pos => [⟨"IDENTIFIER", pos, before, [.name name], true⟩]
  | call name args pos =>
    ⟨"FUNCTION_CALL", pos, before, (call name args pos).tokens, true⟩ ::
      nodesOfItems (before ++ [.name name, .mark .openParen]) args
  | parens inner pos =>
    ⟨"PARENTHESIZED", pos, before, (parens inner pos).tokens, false⟩ ::
      inner.nodes (before ++ [.mark .openParen])
  | operation left op right =>
    ⟨"OPERATION", left.pos, before, (operation left op right).tokens, left.lags⟩ ::
      (left.nodes before ++ right.nodes (before ++ left.tokens ++ [.operator op]))

/-- The nodes of expressions with commas between them. -/
def nodesOfItems (before : List Token) : List Expr → List Node
  | [] => []
  | e :: es => e.nodes before ++ nodesOfItems (before ++ e.tokens ++ [.mark .comma]) es

end

end Expr

/-- The gap behind the statement is not read yet where it ends. -/
def Stmt.leavesGap : Stmt → Bool
  | .function .. => true
  | .declaration _ none _ => false
  | .declaration _ (some e) _ => e.leavesGap
  | .loop .. => true
  | .branch _ _ none _ => false
  | .branch _ _ (some _) _ => true
  | .result value _ => value.leavesGap
  | .assignment _ value _ => value.leavesGap
  | .expression value _ => value.leavesGap

mutual

/-- The nodes of a statement; `unread` tells whether the gap before it is not read yet. -/
def Stmt.nodes (before : List Token) (unread : Bool) : Stmt → List Node
  | .function name params body pos =>
    ⟨"FUNCTION_DEF", pos, before, (Stmt.function name params body pos).tokens, false⟩ ::
      body.nodes (before ++ [.keyword .function, .name name, .mark .openParen] ++
        commaSeparated (params.map fun p => [.name p]) ++ [.mark .closeParen])
  | .declaration name none pos =>
    [⟨"VARIABLE_DECL", pos, before, [.keyword .var, .name name], false⟩]
  | .declaration name (some e) pos =>
    ⟨"VARIABLE_DECL", pos, before, (Stmt.declaration name (some e) pos).tokens, false⟩ ::
      e.nodes (before ++ [.keyword .var, .name name, .mark .assign])
  | .loop condition body pos =>
    ⟨"WHILE", pos, before, (Stmt.loop condition body pos).tokens, false⟩ ::
      (condition.nodes (before ++ [.keyword .loop, .mark .openParen]) ++
        body.nodes (before ++ [.keyword .loop, .mark .openParen] ++ condition.tokens ++
          [.mark .closeParen]))
  | .branch condition positive none pos =>
    ⟨"IF", pos, before, (Stmt.branch condition positive none pos).tokens, false⟩ ::
      (condition.nodes (before ++ [.keyword .branch, .mark .openParen]) ++
        positive.nodes (before ++ [.keyword .branch, .mark .openParen] ++ condition.tokens ++
          [.mark .closeParen]))
  | .branch condition positive (some negative) pos =>
    ⟨"IF", pos, before, (Stmt.branch condition positive (some negative) pos).tokens, false⟩ ::
      (condition.nodes (before ++ [.keyword .branch, .mark .openParen]) ++
        positive.nodes (before ++ [.keyword .branch, .mark .openParen] ++ condition.tokens ++
          [.mark .closeParen]) ++
        negative.nodes (before ++ [.keyword .branch, .mark .openParen] ++ condition.tokens ++
          [.mark .closeParen] ++ positive.tokens ++ [.keyword .otherwise]))
  | .result value pos =>
    ⟨"RETURN", pos, before, (Stmt.result value pos).tokens, false⟩ ::
      value.nodes (before ++ [.keyword .result])
  | .assignment name value pos =>
    ⟨"ASSIGNMENT", pos, before, (Stmt.assignment name value pos).tokens, unread⟩ ::
      value.nodes (before ++ [.name name, .mark .assign])
  | .expression value pos =>
    ⟨"EXPRESSION_STATEMENT", pos, before, value.tokens, unread⟩ :: value.nodes before

/-- The nodes of a braced block. -/
def Body.nodes (before : List Token) : Body → List Node
  | .braced brace pos statements =>
    ⟨"BRACED_BLOCK", brace, before, (Body.braced brace pos statements).tokens, false⟩ ::
      ⟨"BLOCK", pos, before ++ [.mark .openBrace], Stmt.tokensOfAll statements, false⟩ ::
      Stmt.nodesOfAll (before ++ [.mark .openBrace]) false statements

/-- The nodes of statements, one after another. -/
def Stmt.nodesOfAll (before : List Token) (unread : Bool) : List Stmt → List Node
  | [] => []
  | s :: ss => s.nodes before unread ++ Stmt.nodesOfAll (before ++ s.tokens) s.leavesGap ss

end

def Program.nodes (p : Program) : List Node :=
  ⟨"PROGRAM", p.pos, [], p.tokens, false⟩ :: ⟨"BLOCK", p.pos, [], p.tokens, false⟩ ::
    Stmt.nodesOfAll [] false p.statements

/-! ## The tree as exchanged -/

/-- What of a node is seen in the tree as exchanged. -/
def Node.label (n : Node) : Option String × Option (Nat × Nat) :=
  (some n.kind, some (n.pos.line, n.pos.column))

end Bronti.Syntax

namespace Bronti

/-- The kind of a node with the line and the column of its span. -/
def Datum.label (d : Datum) : Option String × Option (Nat × Nat) :=
  (d.kind?, d.span?.map fun s => (s.line, s.column))

end Bronti

namespace Bronti.Syntax

theorem Expr.place_span (file : String) (e : Expr) :
    ((e.span file).line, (e.span file).column) = (e.pos.line, e.pos.column) := by
  match e with
  | .operation left op right => exact left.place_span file
  | .literal .. | .reference .. | .call .. | .parens .. => rfl

mutual

theorem Expr.labels (file : String) (before : List Token) (e : Expr) :
    (e.toDatum file).nodes.map Datum.label = (e.nodes before).map Node.label := by
  match e with
  | .literal text pos | .reference name pos => rfl
  | .call name args pos =>
    simp only [toDatum, nodes, Datum.nodes, List.map_cons]
    rw [labels_of_items file _ args]
    rfl
  | .parens inner pos =>
    simp only [toDatum, nodes, Datum.nodes, Datum.nodesOfAll, List.map_cons, List.append_nil]
    rw [inner.labels file _]
    rfl
  | .operation left op right =>
    simp only [toDatum, nodes, Datum.nodes, Datum.nodesOfAll, List.map_cons, List.map_append,
      List.append_nil]
    rw [left.labels file before, right.labels file (before ++ left.tokens ++ [.operator op])]
    simp [Datum.label, Datum.kind?, Datum.span?, Node.label, left.place_span file]

theorem Expr.labels_of_items (file : String) (before : List Token) (es : List Expr) :
    (Datum.nodesOfAll (toData file es)).map Datum.label =
      (nodesOfItems before es).map Node.label := by
  match es with
  | [] => rfl
  | e :: es =>
    simp only [toData, nodesOfItems, Datum.nodesOfAll, List.map_append]
    rw [e.labels file before, labels_of_items file _ es]

end

mutual

theorem Stmt.labels (file : String) (before : List Token) (unread : Bool) (s : Stmt) :
    (s.toDatum file).nodes.map Datum.label = (s.nodes before unread).map Node.label := by
  match s with
  | .function name params body pos =>
    simp only [Stmt.toDatum, Stmt.nodes, Datum.nodes, Datum.nodesOfAll, List.map_cons, List.append_nil]
    rw [body.labels file _]
    rfl
  | .declaration name none pos => rfl
  | .declaration name (some e) pos | .result e pos | .assignment name e pos | .expression e pos =>
    simp only [Stmt.toDatum, Stmt.nodes, Datum.nodes, Datum.nodesOfAll, List.map_cons, List.append_nil,
      Option.toList_some, List.map_nil]
    rw [e.labels file _]
    rfl
  | .loop condition body pos =>
    simp only [Stmt.toDatum, Stmt.nodes, Datum.nodes, Datum.nodesOfAll, List.map_cons, List.map_append,
      List.append_nil]
    rw [condition.labels file _, body.labels file _]
    rfl
  | .branch condition positive none pos =>
    simp only [Stmt.toDatum, Stmt.nodes, Datum.nodes, Datum.nodesOfAll, List.map_cons, List.map_append,
      List.append_nil]
    rw [condition.labels file _, positive.labels file _]
    rfl
  | .branch condition positive (some negative) pos =>
    simp only [Stmt.toDatum, Stmt.nodes, Datum.nodes, Datum.nodesOfAll, List.map_cons, List.map_append,
      List.append_nil, List.append_assoc]
    rw [condition.labels file _, positive.labels file _, negative.labels file _]
    rfl

theorem Body.labels (file : String) (before : List Token) (b : Body) :
    (b.toDatum file).nodes.map Datum.label = (b.nodes before).map Node.label := by
  match b with
  | .braced brace pos statements =>
    simp only [Body.toDatum, Body.nodes, Datum.nodes, Datum.nodesOfAll, List.map_cons, List.append_nil]
    rw [Stmt.labels_of_all file _ false statements]
    rfl

theorem Stmt.labels_of_all (file : String) (before : List Token) (unread : Bool)
    (ss : List Stmt) :
    (Datum.nodesOfAll (Stmt.toData file ss)).map Datum.label =
      (Stmt.nodesOfAll before unread ss).map Node.label := by
  match ss with
  | [] => rfl
  | s :: ss =>
    simp only [Stmt.toData, Stmt.nodesOfAll, Datum.nodesOfAll, List.map_append]
    rw [s.labels file before unread, Stmt.labels_of_all file _ _ ss]

end

/-- The nodes of a program are those of the tree as exchanged, in the same order. -/
theorem Program.labels (file : String) (p : Program) :
    (p.toDatum file).nodes.map Datum.label = p.nodes.map Node.label := by
  simp only [toDatum, nodes, Datum.nodes, Datum.nodesOfAll, List.map_cons, List.append_nil]
  rw [Stmt.labels_of_all file [] false p.statements]
  rfl

/-- An operation as exchanged. -/
def IsOperation (file : String) (d : Datum) : Prop :=
  ∃ left op right, d = (Expr.operation left op right).toDatum file

mutual

/-- The nodes of this kind are just the operations. -/
theorem Expr.operations (file : String) (e : Expr) :
    ∀ d ∈ (e.toDatum file).nodes, d.kind? = some "OPERATION" → IsOperation file d := by
  intro d hd hk
  match e with
  | .literal text pos | .reference name pos =>
    obtain rfl := List.mem_singleton.mp hd
    simp [Datum.kind?] at hk
  | .call name args pos =>
    rcases List.mem_cons.mp hd with rfl | hd
    · simp [Datum.kind?] at hk
    · exact operations_of_each file args d hd hk
  | .parens inner pos =>
    rcases List.mem_cons.mp hd with rfl | hd
    · simp [Datum.kind?] at hk
    · exact inner.operations file d (by simpa [Datum.nodesOfAll] using hd) hk
  | .operation left op right =>
    rcases List.mem_cons.mp hd with rfl | hd
    · exact ⟨left, op, right, rfl⟩
    · simp only [Datum.nodesOfAll, List.append_nil, List.mem_append] at hd
      rcases hd with hd | hd
      · exact left.operations file d hd hk
      · exact right.operations file d hd hk

theorem Expr.operations_of_each (file : String) (es : List Expr) :
    ∀ d ∈ Datum.nodesOfAll (toData file es), d.kind? = some "OPERATION" → IsOperation file d := by
  intro d hd hk
  match es with
  | [] => cases hd
  | e :: es =>
    rcases List.mem_append.mp hd with hd | hd
    · exact e.operations file d hd hk
    · exact operations_of_each file es d hd hk

end

mutual

theorem Stmt.operations (file : String) (s : Stmt) :
    ∀ d ∈ (s.toDatum file).nodes, d.kind? = some "OPERATION" → IsOperation file d := by
  intro d hd hk
  match s with
  | .function name params body pos =>
    rcases List.mem_cons.mp hd with rfl | hd
    · simp [Datum.kind?] at hk
    · exact body.operations file d (by simpa [Datum.nodesOfAll] using hd) hk
  | .declaration name none pos =>
    obtain rfl := List.mem_singleton.mp hd
    simp [Datum.kind?] at hk
  | .declaration name (some e) pos | .result e pos | .assignment name e pos | .expression e pos =>
    rcases List.mem_cons.mp hd with rfl | hd
    · simp [Datum.kind?] at hk
    · exact e.operations file d (by simpa [Datum.nodesOfAll] using hd) hk
  | .loop condition body pos | .branch condition body none pos =>
    rcases List.mem_cons.mp hd with rfl | hd
    · simp [Datum.kind?] at hk
    · simp only [Datum.nodesOfAll, List.append_nil, List.mem_append] at hd
      rcases hd with hd | hd
      · exact condition.operations file d hd hk
      · exact body.operations file d hd hk
  | .branch condition positive (some negative) pos =>
    rcases List.mem_cons.mp hd with rfl | hd
    · simp [Datum.kind?] at hk
    · simp only [Datum.nodesOfAll, List.append_nil, List.mem_append] at hd
      rcases hd with hd | hd | hd
      · exact condition.operations file d hd hk
      · exact positive.operations file d hd hk
      · exact negative.operations file d hd hk

theorem Body.operations (file : String) (b : Body) :
    ∀ d ∈ (b.toDatum file).nodes, d.kind? = some "OPERATION" → IsOperation file d := by
  intro d hd hk
  match b with
  | .braced brace pos statements =>
    rcases List.mem_cons.mp hd with rfl | hd
    · simp [Datum.kind?] at hk
    · simp only [Datum.nodesOfAll, Datum.nodes, List.append_nil, List.mem_cons] at hd
      rcases hd with rfl | hd
      · simp [Datum.kind?] at hk
      · exact Stmt.operations_of_each file statements d hd hk

theorem Stmt.operations_of_each (file : String) (ss : List Stmt) :
    ∀ d ∈ Datum.nodesOfAll (Stmt.toData file ss), d.kind? = some "OPERATION" →
      IsOperation file d := by
  intro d hd hk
  match ss with
  | [] => cases hd
  | s :: ss =>
    rcases List.mem_append.mp hd with hd | hd
    · exact s.operations file d hd hk
    · exact Stmt.operations_of_each file ss d hd hk

end

theorem Program.operations (file : String) (p : Program) :
    ∀ d ∈ (p.toDatum file).nodes, d.kind? = some "OPERATION" → IsOperation file d := by
  intro d hd hk
  rcases List.mem_cons.mp hd with rfl | hd
  · simp [Datum.kind?] at hk
  · simp only [Datum.nodesOfAll, Datum.nodes, List.append_nil, List.mem_cons] at hd
    rcases hd with rfl | hd
    · simp [Datum.kind?] at hk
    · exact Stmt.operations_of_each file p.statements d hd hk

/-- An operation has the span of its left operand. -/
theorem IsOperation.span {file : String} {d : Datum} (h : IsOperation file d) :
    d.span? = d.children.head?.bind Datum.span? := by
  obtain ⟨left, op, right, rfl⟩ := h
  cases left <;> rfl

/-! ## The tokens of nodes -/

/-- An expression begins with its first node. -/
theorem Expr.nodes_head (before : List Token) (e : Expr) :
    ∃ n rest, e.nodes before = n :: rest ∧ n.pos = e.pos ∧ n.before = before ∧
      n.lags = e.lags := by
  cases e <;> exact ⟨_, _, rfl, rfl, rfl, rfl⟩

/-- The tokens before a node and its own begin a sequence of tokens, in which a closing brace follows
a node that has none. -/
structure Node.Within (n : Node) (ts : List Token) : Prop where
  begins : n.before ++ n.tokens <+: ts
  closed : n.tokens = [] → n.before ++ [.mark .closeBrace] <+: ts

theorem Node.Within.append {n : Node} {ts : List Token} (h : n.Within ts) (us : List Token)
    {vs : List Token} (hvs : ts ++ us = vs) : n.Within vs :=
  ⟨h.begins.trans ⟨us, hvs⟩, fun hnil => (h.closed hnil).trans ⟨us, hvs⟩⟩

theorem Node.Within.whole {n : Node} (h : n.tokens ≠ []) : n.Within (n.before ++ n.tokens) :=
  ⟨List.prefix_rfl, fun hnil => absurd hnil h⟩

theorem Expr.tokens_ne_nil (e : Expr) : e.tokens ≠ [] := by
  obtain ⟨t, ts, ht, -⟩ := e.begins
  simp [ht]

theorem Stmt.tokens_ne_nil (s : Stmt) : s.tokens ≠ [] := by
  obtain ⟨t, ts, ht, -⟩ := s.begins
  simp [ht]

mutual

theorem Expr.nodes_within (before : List Token) (e : Expr) :
    ∀ n ∈ e.nodes before, n.Within (before ++ e.tokens) := by
  intro n hn
  match e with
  | .literal text pos | .reference name pos =>
    obtain rfl := List.mem_singleton.mp hn
    exact .whole (by simp)
  | .call name args pos =>
    rcases List.mem_cons.mp hn with rfl | hn
    · exact .whole (Expr.tokens_ne_nil _)
    · refine (nodes_within_items _ args n hn).append [.mark .closeParen] ?_
      simp [tokens, tokens_of_each]
  | .parens inner pos =>
    rcases List.mem_cons.mp hn with rfl | hn
    · exact .whole (Expr.tokens_ne_nil _)
    · refine (inner.nodes_within _ n hn).append [.mark .closeParen] ?_
      simp [tokens]
  | .operation left op right =>
    rcases List.mem_cons.mp hn with rfl | hn
    · exact .whole (Expr.tokens_ne_nil _)
    rcases List.mem_append.mp hn with hn | hn
    · refine (left.nodes_within _ n hn).append (.operator op :: right.tokens) ?_
      simp [tokens]
    · refine (right.nodes_within _ n hn).append [] ?_
      simp [tokens]

theorem Expr.nodes_within_items (before : List Token) (es : List Expr) :
    ∀ n ∈ nodesOfItems before es,
      n.Within (before ++ commaSeparated (es.map tokens)) := by
  intro n hn
  match es with
  | [] => cases hn
  | e :: es =>
    rcases List.mem_append.mp hn with hn | hn
    · refine (e.nodes_within _ n hn).append
        (es.flatMap fun f => .mark .comma :: f.tokens) ?_
      simp [commaSeparated, List.flatMap_map]
    · cases es with
      | nil => cases hn
      | cons f es =>
        refine (nodes_within_items _ (f :: es) n hn).append [] ?_
        simp [commaSeparated]

end

mutual

theorem Stmt.nodes_within (before : List Token) (unread : Bool) (s : Stmt) :
    ∀ n ∈ s.nodes before unread, n.Within (before ++ s.tokens) := by
  intro n hn
  match s with
  | .declaration name none pos =>
    obtain rfl := List.mem_singleton.mp hn
    exact .whole (by simp)
  | .function name params body pos =>
    rcases List.mem_cons.mp hn with rfl | hn
    · exact .whole (Stmt.tokens_ne_nil _)
    · refine (body.nodes_within _ n hn).append [] ?_
      simp [Stmt.tokens]
  | .expression e pos =>
    rcases List.mem_cons.mp hn with rfl | hn
    · exact .whole e.tokens_ne_nil
    · exact e.nodes_within _ n hn
  | .declaration name (some e) pos | .result e pos | .assignment name e pos =>
    rcases List.mem_cons.mp hn with rfl | hn
    · exact .whole (Stmt.tokens_ne_nil _)
    · refine (e.nodes_within _ n hn).append [] ?_
      simp [Stmt.tokens]
  | .loop condition body pos =>
    rcases List.mem_cons.mp hn with rfl | hn
    · exact .whole (Stmt.tokens_ne_nil _)
    rcases List.mem_append.mp hn with hn | hn
    · refine (condition.nodes_within _ n hn).append (.mark .closeParen :: body.tokens) ?_
      simp [Stmt.tokens]
    · refine (body.nodes_within _ n hn).append [] ?_
      simp [Stmt.tokens]
  | .branch condition positive none pos =>
    rcases List.mem_cons.mp hn with rfl | hn
    · exact .whole (Stmt.tokens_ne_nil _)
    rcases List.mem_append.mp hn with hn | hn
    · refine (condition.nodes_within _ n hn).append (.mark .closeParen :: positive.tokens) ?_
      simp [Stmt.tokens]
    · refine (positive.nodes_within _ n hn).append [] ?_
      simp [Stmt.tokens]
  | .branch condition positive (some negative) pos =>
    rcases List.mem_cons.mp hn with rfl | hn
    · exact .whole (Stmt.tokens_ne_nil _)
    rcases List.mem_append.mp hn with hn | hn
    · rcases List.mem_append.mp hn with hn | hn
      · refine (condition.nodes_within _ n hn).append
          (.mark .closeParen :: (positive.tokens ++ .keyword .otherwise :: negative.tokens)) ?_
        simp [Stmt.tokens]
      · refine (positive.nodes_within _ n hn).append (.keyword .otherwise :: negative.tokens) ?_
        simp [Stmt.tokens]
    · refine (negative.nodes_within _ n hn).append [] ?_
      simp [Stmt.tokens]

theorem Body.nodes_within (before : List Token) (b : Body) :
    ∀ n ∈ b.nodes before, n.Within (before ++ b.tokens) := by
  intro n hn
  match b with
  | .braced brace pos statements =>
    rcases List.mem_cons.mp hn with rfl | hn
    · exact .whole (by simp [Body.tokens])
    rcases List.mem_cons.mp hn with rfl | hn
    · refine ⟨⟨[.mark .closeBrace], by simp [Body.tokens]⟩, fun hnil => ⟨[], ?_⟩⟩
      have hempty : Stmt.tokensOfAll statements = [] := hnil
      simp [Body.tokens, hempty]
    · refine (Stmt.nodes_within_all _ _ statements n hn).append [.mark .closeBrace] ?_
      simp [Body.tokens]

theorem Stmt.nodes_within_all (before : List Token) (unread : Bool) (ss : List Stmt) :
    ∀ n ∈ Stmt.nodesOfAll before unread ss,
      n.Within (before ++ Stmt.tokensOfAll ss) := by
  intro n hn
  match ss with
  | [] => cases hn
  | s :: ss =>
    rcases List.mem_append.mp hn with hn | hn
    · refine (s.nodes_within _ _ n hn).append (Stmt.tokensOfAll ss) ?_
      simp [Stmt.tokensOfAll]
    · refine (Stmt.nodes_within_all _ _ ss n hn).append [] ?_
      simp [Stmt.tokensOfAll]

end

/-- The whole program aside, a node that has no tokens stands before a closing brace. -/
theorem Program.nodes_within (p : Program) :
    ∀ n ∈ p.nodes, n.Within p.tokens ∨ n.before = [] ∧ n.tokens = p.tokens := by
  intro n hn
  rcases List.mem_cons.mp hn with rfl | hn
  · exact .inr ⟨rfl, rfl⟩
  rcases List.mem_cons.mp hn with rfl | hn
  · exact .inr ⟨rfl, rfl⟩
  · exact .inl (Stmt.nodes_within_all [] false p.statements n hn)

end Bronti.Syntax
