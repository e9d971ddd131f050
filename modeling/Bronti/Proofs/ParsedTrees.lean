import Bronti.Proofs.ReadingSound
import Bronti.Proofs.Roles
import Bronti.Session

/-!
The trees that texts are read as, lowered. Every one of them is lowered, to a strict tree, so that
no text is rejected once it is read.
-/
namespace Bronti

namespace Syntax

namespace Expr

mutual

/-- The tree that an expression is lowered to. -/
def toAst (file : String) : Expr → Ast
  | literal text pos => .literal text (some (.ofPosition file pos text))
  | reference name pos => .reference name (some (.ofPosition file pos name))
  | call name args pos => .call name (toAsts file args) (some (.ofPosition file pos name))
  | parens inner pos => .parens (inner.toAst file) (some (.ofPosition file pos ""))
  | operation left op right =>
    .operation (left.toAst file) op.symbol (right.toAst file) (some (left.span file))

/-- The trees that expressions are lowered to. -/
def toAsts (file : String) : List Expr → List Ast
  | [] => []
  | e :: es => e.toAst file :: toAsts file es

end

theorem toData_eq (file : String) (es : List Expr) : toData file es = es.map (toDatum file) := by
  induction es with
  | nil => rfl
  | cons e es ih => simp [toData, ih]

theorem toAsts_eq (file : String) (es : List Expr) : toAsts file es = es.map (toAst file) := by
  induction es with
  | nil => rfl
  | cons e es ih => simp [toAsts, ih]

end Expr

mutual

/-- The tree that a statement is lowered to. -/
def Stmt.toAst (file : String) : Stmt → Ast
  | .function name params body pos =>
    .function name params (body.toAst file) (some (.ofPosition file pos name))
  | .declaration name initializer pos =>
    .declaration name (initializer.map (Expr.toAst file)) (some (.ofPosition file pos name))
  | .loop condition body pos =>
    .loop (condition.toAst file) (body.toAst file) (some (.ofPosition file pos ""))
  | .branch condition positive none pos =>
    .branch (condition.toAst file) (some (positive.toAst file)) none
      (some (.ofPosition file pos ""))
  | .branch condition positive (some negative) pos =>
    .branch (condition.toAst file) (some (positive.toAst file)) (some (negative.toAst file))
      (some (.ofPosition file pos ""))
  | .result value pos => .result (value.toAst file) (some (.ofPosition file pos ""))
  | .assignment name value pos =>
    .assignment name (value.toAst file) (some (.ofPosition file pos name))
  | .expression value pos => .statement (value.toAst file) (some (.ofPosition file pos ""))

/-- The tree that a braced block is lowered to. -/
def Body.toAst (file : String) : Body → Ast
  | .braced brace pos statements =>
    .braced [.block (Stmt.toAsts file statements) (some (.ofPosition file pos ""))]
      (some (.ofPosition file brace ""))

/-- The trees that statements are lowered to. -/
def Stmt.toAsts (file : String) : List Stmt → List Ast
  | [] => []
  | s :: ss => s.toAst file :: Stmt.toAsts file ss

end

/-- The tree that a program is lowered to. -/
def Program.toAst (file : String) (p : Program) : Ast :=
  .program [.block (Stmt.toAsts file p.statements) (some (.ofPosition file p.pos ""))]
    (some (.ofPosition file p.pos ""))

namespace Stmt

theorem toData_eq (file : String) (ss : List Stmt) : toData file ss = ss.map (toDatum file) := by
  induction ss with
  | nil => rfl
  | cons s ss ih => simp [toData, ih]

theorem toAsts_eq (file : String) (ss : List Stmt) : toAsts file ss = ss.map (toAst file) := by
  induction ss with
  | nil => rfl
  | cons s ss ih => simp [toAsts, ih]

end Stmt

theorem IsName.ne_empty {s : String} (h : IsName s) : s ≠ "" := by
  rintro rfl
  obtain ⟨c, cs, hs, _⟩ := h.start
  simp at hs

theorem lowers_map {α : Type} {toDatum : α → Datum} {toAst : α → Ast} {xs : List α}
    (h : ∀ x ∈ xs, Lowers (toDatum x) (toAst x)) :
    List.Forall₂ Lowers (xs.map toDatum) (xs.map toAst) := by
  rw [List.forall₂_map_left_iff, List.forall₂_map_right_iff]
  exact List.forall₂_same.mpr h

/-! ## Every tree of the grammar is lowered -/

section Lowered

variable (file : String)

theorem Expr.kind_toDatum (e : Expr) : (e.toDatum file).OneOf Lowering.expressionKinds := by
  cases e <;> exact ⟨_, by simp [Lowering.expressionKinds], rfl⟩

theorem Expr.role_toAst (e : Expr) : (e.toAst file).role? = some .expression := by
  cases e <;> rfl

theorem Stmt.role_toAst (s : Stmt) : (s.toAst file).role? = some .statement := by
  cases s with
  | branch condition positive negative pos => cases negative <;> rfl
  | _ => rfl

theorem Stmt.isExpression_toAst (s : Stmt) : (s.toAst file).isExpression = false := by
  rw [← Bool.not_eq_true, Ast.isExpression_iff, s.role_toAst]
  simp

theorem Body.role_toAst (b : Body) : (b.toAst file).role? = some .body := by
  cases b
  rfl

theorem Body.kind_toDatum (b : Body) : (b.toDatum file).OneOf ["BRACED_BLOCK"] := by
  cases b
  exact ⟨_, by simp, rfl⟩

theorem Expr.WellFormed.lowers {e : Expr} (h : e.WellFormed) :
    Lowers (e.toDatum file) (e.toAst file) := by
  induction h with
  | literal _ => exact .literal
  | reference h => exact .reference h.ne_empty
  | call h _ ih =>
    rw [Expr.toDatum, Expr.toAst, Expr.toData_eq, Expr.toAsts_eq]
    refine .call h.ne_empty (lowers_map ih) fun d hd => ?_
    obtain ⟨e, -, rfl⟩ := List.mem_map.mp hd
    exact e.kind_toDatum file
  | parens _ ih => exact .parens ih (Expr.kind_toDatum file _)
  | operation _ _ _ _ ihl ihr =>
    refine .operation ?_ ihl ihr (Expr.kind_toDatum file _) (Expr.kind_toDatum file _)
    rw [Operator.ofSymbol?_symbol]
    rfl

mutual

theorem Stmt.WellFormed.lowers {s : Stmt} (h : s.WellFormed) :
    Lowers (s.toDatum file) (s.toAst file) := by
  cases h with
  | @function name params body pos h hp hb =>
    refine .function rfl h.ne_empty ?_ (fun x hx => (hp x hx).ne_empty) hb.lowers
      (body.kind_toDatum file)
    rfl
  | @declaration name initializer pos h he =>
    cases initializer with
    | none => exact .declaration h.ne_empty
    | some e => exact .initialized h.ne_empty ((he e rfl).lowers file) (e.kind_toDatum file)
  | @loop condition body pos hc hb =>
    exact .loop (hc.lowers file) hb.lowers (condition.kind_toDatum file)
      (body.kind_toDatum file)
  | @branch condition positive negative pos hc hp hn =>
    cases negative with
    | none =>
      exact .branch (hc.lowers file) hp.lowers (condition.kind_toDatum file)
        (positive.kind_toDatum file)
    | some b =>
      exact .alternative (hc.lowers file) hp.lowers (hn b rfl).lowers
        (condition.kind_toDatum file) (positive.kind_toDatum file) (b.kind_toDatum file)
  | @result value pos h => exact .result (h.lowers file) (value.kind_toDatum file)
  | @assignment name value pos h he =>
    exact .assignment h.ne_empty (he.lowers file) (value.kind_toDatum file)
  | @expression value pos h => exact .statement (h.lowers file) (value.kind_toDatum file)

theorem Body.WellFormed.lowers {b : Body} (h : b.WellFormed) :
    Lowers (b.toDatum file) (b.toAst file) := by
  cases h with
  | @braced brace pos statements h =>
    rw [Body.toDatum, Body.toAst, Stmt.toData_eq, Stmt.toAsts_eq]
    refine .braced (.block (lowers_map fun s hs => (h s hs).lowers) fun a ha => ?_)
      ⟨_, by simp, rfl⟩
    obtain ⟨s, -, rfl⟩ := List.mem_map.mp ha
    exact s.isExpression_toAst file

end

theorem Program.WellFormed.lowers {p : Program} (h : p.WellFormed) :
    Lowers (p.toDatum file) (p.toAst file) := by
  rw [Program.toDatum, Program.toAst, Stmt.toData_eq, Stmt.toAsts_eq]
  refine .program (.block (lowers_map fun s hs => (h s hs).lowers file) fun a ha => ?_)
    ⟨_, by simp, rfl⟩
  obtain ⟨s, -, rfl⟩ := List.mem_map.mp ha
  exact s.isExpression_toAst file

end Lowered

/-! ## Every tree of the grammar is lowered to a strict tree -/

section Strict

variable (file : String)

open Ast (strict_iff)

theorem Expr.strict (e : Expr) : (e.toAst file).Strict := by
  match e with
  | .literal _ _ | .reference _ _ => exact strict_iff.mpr ⟨trivial, by simp [toAst, Ast.children]⟩
  | .call _ args _ =>
    rw [toAst, toAsts_eq, strict_iff]
    simp only [Ast.Fits, Ast.children, List.forall_mem_map]
    exact ⟨fun e _ => e.role_toAst file, fun e _ => e.strict⟩
  | .parens inner _ =>
    exact strict_iff.mpr ⟨inner.role_toAst file, by simpa [toAst, Ast.children] using inner.strict⟩
  | .operation left op right =>
    refine strict_iff.mpr ⟨⟨left.role_toAst file, right.role_toAst file, ?_⟩, ?_⟩
    · rw [Operator.ofSymbol?_symbol]
      rfl
    · simpa [toAst, Ast.children] using ⟨left.strict, right.strict⟩

/-- A block of statements is strict if they are. -/
theorem Stmt.strict_block {ss : List Stmt} (h : ∀ s ∈ ss, (s.toAst file).Strict)
    (span : Option Span) : (Ast.block (Stmt.toAsts file ss) span).Strict := by
  rw [Stmt.toAsts_eq, strict_iff]
  simp only [Ast.Fits, Ast.children, List.forall_mem_map]
  exact ⟨fun s _ => ⟨_, s.role_toAst file, rfl⟩, h⟩

mutual

theorem Stmt.strict (s : Stmt) : (s.toAst file).Strict := by
  match s with
  | .function name params body pos =>
    refine strict_iff.mpr ⟨body.role_toAst file, ?_⟩
    simpa [Stmt.toAst, Ast.children] using body.strict
  | .declaration name none pos =>
    exact strict_iff.mpr ⟨by simp [Stmt.toAst, Ast.Fits], by simp [Stmt.toAst, Ast.children]⟩
  | .declaration name (some e) pos =>
    refine strict_iff.mpr ⟨?_, ?_⟩
    · simpa [Stmt.toAst, Ast.Fits] using e.role_toAst file
    · simpa [Stmt.toAst, Ast.children] using e.strict file
  | .loop condition body pos =>
    refine strict_iff.mpr ⟨⟨condition.role_toAst file, body.role_toAst file⟩, ?_⟩
    simpa [Stmt.toAst, Ast.children] using ⟨condition.strict file, body.strict⟩
  | .branch condition positive none pos =>
    refine strict_iff.mpr ⟨⟨condition.role_toAst file, ⟨_, rfl, positive.role_toAst file⟩, ?_⟩, ?_⟩
    · simp
    · simpa [Stmt.toAst, Ast.children] using ⟨condition.strict file, positive.strict⟩
  | .branch condition positive (some negative) pos =>
    refine strict_iff.mpr ⟨⟨condition.role_toAst file, ⟨_, rfl, positive.role_toAst file⟩, ?_⟩, ?_⟩
    · simpa using negative.role_toAst file
    · simpa [Stmt.toAst, Ast.children] using
        ⟨condition.strict file, positive.strict, negative.strict⟩
  | .result value _ | .assignment _ value _ | .expression value _ =>
    refine strict_iff.mpr ⟨value.role_toAst file, ?_⟩
    simpa [Stmt.toAst, Ast.children] using value.strict file

theorem Body.strict (b : Body) : (b.toAst file).Strict := by
  match b with
  | .braced brace pos statements =>
    refine strict_iff.mpr ⟨⟨_, rfl, rfl⟩, ?_⟩
    simpa [Body.toAst, Ast.children] using Stmt.strict_block file (fun s _ => s.strict) _

end

theorem Program.strict (p : Program) : (p.toAst file).Strict := by
  refine strict_iff.mpr ⟨⟨_, rfl, rfl⟩, ?_⟩
  simpa [Program.toAst, Ast.children] using Stmt.strict_block file (fun s _ => s.strict file) _

end Strict

end Syntax

open Syntax

/-! ## Texts that are read -/

namespace Lowering

theorem run_yields {α : Type} {m : Lowering α} {a : α} (h : Yields m a) (tracing : Bool) :
    ∃ trace, m.run tracing = (.ok a, trace) := by
  obtain ⟨j, hj⟩ := h ⟨tracing, []⟩
  exact ⟨j.trace, by simp [run, hj]⟩

end Lowering

namespace Session

theorem lower_program {d : Datum} {a : Ast} (h : Lowers d a) (hkind : d.kind? = some "PROGRAM")
    (tracing : Bool) : (Session.lower true tracing d).answer = .ok a := by
  obtain ⟨trace, htrace⟩ := Lowering.run_yields (lowerProgram_complete h hkind) tracing
  simp [Session.lower, htrace]

theorem lower_node {d : Datum} {a : Ast} (h : Lowers d a) (tracing : Bool) :
    (Session.lower false tracing d).answer = .ok a := by
  obtain ⟨trace, htrace⟩ := Lowering.run_yields (lower_complete h) tracing
  simp [Session.lower, htrace]

theorem readProgram_answer {file : String} {tracing : Bool} {text : String} {d : Datum}
    (h : (readProgram file tracing text).answer = .ok d) :
    ∃ p, Syntax.readProgram text = .ok p ∧ d = p.toDatum file := by
  unfold readProgram at h
  split at h
  · next p hp =>
    cases h
    exact ⟨p, hp, rfl⟩
  · cases h

theorem readStatement_answer {file text : String} {d : Datum}
    (h : (readStatement file text).answer = .ok d) :
    ∃ s, Syntax.readStatement text = .ok s ∧ d = s.toDatum file := by
  unfold readStatement at h
  split at h
  · next s hs =>
    cases h
    exact ⟨s, hs, rfl⟩
  · cases h

theorem readExpression_answer {file text : String} {d : Datum}
    (h : (readExpression file text).answer = .ok d) :
    ∃ e, Syntax.readExpression text = .ok e ∧ d = e.toDatum file := by
  unfold readExpression at h
  split at h
  · next e he =>
    cases h
    exact ⟨e, he, rfl⟩
  · cases h

/-- A problem of two stages in a row is that of the first, or that of the second after an answer. -/
theorem andThen_error {α β : Type} {s : Session α} {f : α → Session β} {p : Problem}
    (h : (s.andThen f).answer = .error p) :
    s.answer = .error p ∨ ∃ a, s.answer = .ok a ∧ (f a).answer = .error p := by
  unfold andThen at h
  split at h
  · next a ha => exact .inr ⟨a, ha, h⟩
  · next q hq =>
    cases h
    exact .inl hq

end Session

end Bronti
