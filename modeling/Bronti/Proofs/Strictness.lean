import Bronti.Proofs.Defects
import Bronti.Proofs.Roles

/-!
Which trees lowering lets through. Every node of an accepted program stands in a place made for it,
but a block may hold more than statements: whatever stands for no value passes there. So an accepted
program is strict exactly if its blocks held statements before.
-/
namespace Bronti

namespace Datum

/-- The kinds of nodes that are statements. -/
def statementKinds : List String :=
  ["FUNCTION_DEF", "VARIABLE_DECL", "ASSIGNMENT", "IF", "WHILE", "RETURN", "EXPRESSION_STATEMENT"]

/-- If the datum is a block, it holds statements. -/
def HoldsStatements (d : Datum) : Prop :=
  d.kind? = some "BLOCK" → ∀ e ∈ d.children, e.OneOf statementKinds

/-- Every block of the datum holds statements. -/
def Orderly (d : Datum) : Prop := ∀ n ∈ d.nodes, n.HoldsStatements

theorem orderly_node {kind : String} {value : Datum} {ds : List Datum} {span : Option Span} :
    (node kind value ds span).Orderly ↔
      (node kind value ds span).HoldsStatements ∧ ∀ e ∈ ds, e.Orderly := by
  constructor
  · intro h
    refine ⟨h _ (mem_nodes.mpr (.inl rfl)), fun e he n hn => h n ?_⟩
    exact mem_nodes.mpr (.inr ⟨e, he, hn⟩)
  · rintro ⟨hself, hchildren⟩ n hn
    rcases mem_nodes.mp hn with rfl | ⟨e, he, hn⟩
    · exact hself
    · exact hchildren e he n hn

end Datum

theorem forall_iff_of_forall₂ {α β : Type} {R : α → β → Prop} {P : α → Prop} {Q : β → Prop}
    {xs : List α} {ys : List β} (h : List.Forall₂ R xs ys)
    (hR : ∀ x, ∀ y ∈ ys, R x y → (P x ↔ Q y)) : (∀ x ∈ xs, P x) ↔ ∀ y ∈ ys, Q y := by
  induction h with
  | nil => simp
  | @cons x y xs ys hxy _ ih =>
    have hrest := ih fun u v hv => hR u v (by simp [hv])
    rw [List.forall_mem_cons, List.forall_mem_cons, hR x y (by simp) hxy, hrest]

namespace Lowers

variable {d : Datum} {a : Ast}

theorem statement_iff (h : Lowers d a) :
    d.OneOf Datum.statementKinds ↔ a.role? = some .statement := by
  cases h <;> simp [Datum.OneOf, Datum.statementKinds, Datum.kind?, Ast.role?]

/-- Where a lowered tree is no block, what may stand in a block makes no difference to it. -/
theorem fits_statement_iff (h : Lowers d a) :
    a.Fits (· = .statement) ↔ d.HoldsStatements := by
  have hfits := h.fits
  cases h with
  | @block _ ds as _ inner _ =>
    have hchildren : (∀ e ∈ ds, e.OneOf Datum.statementKinds) ↔
        ∀ b ∈ as, b.role? = some .statement :=
      forall_iff_of_forall₂ inner fun _ _ _ hb => hb.statement_iff
    simpa [Ast.Fits, Datum.HoldsStatements, Datum.kind?, Datum.children] using hchildren.symm
  | _ => exact iff_of_true hfits fun hblock => by simp [Datum.kind?] at hblock

/-- A lowered tree is strict exactly if all blocks hold statements in the tree before. -/
theorem strict_iff_orderly {d : Datum} {a : Ast} (h : Lowers d a) : a.Strict ↔ d.Orderly := by
  have hchildren : (∀ e ∈ d.children, e.Orderly) ↔ ∀ b ∈ a.children, b.Strict := by
    refine forall_iff_of_forall₂ h.children fun e b hb heb => ?_
    have := Ast.sizeOf_lt_of_child hb
    exact heb.strict_iff_orderly.symm
  rw [Ast.strict_iff, ← hchildren, h.fits_statement_iff]
  obtain ⟨kind, value, ds, span, rfl⟩ : ∃ kind value ds span, d = .node kind value ds span := by
    cases h <;> exact ⟨_, _, _, _, rfl⟩
  exact Datum.orderly_node.symm
termination_by sizeOf a

end Lowers

/-- What the analysis accepts is a program in which every node stands in a place made for it, except
that a block may hold any node that stands for no value. It is strict exactly if the blocks of the
tree that was given hold statements only. -/
theorem accepted_trees_fit {d : Datum} {tracing : Bool} {a : Ast}
    (h : (Session.lower true tracing d).answer = .ok a) :
    a.role? = some .program ∧ (∀ b ∈ a.nodes, b.Fits (· ≠ .expression)) ∧
      (a.Strict ↔ d.Orderly) := by
  obtain ⟨hlowers, hkind⟩ := Session.lowers_of_answer h
  refine ⟨?_, hlowers.nodes_fit, hlowers.strict_iff_orderly⟩
  cases hlowers with
  | program => rfl
  | _ => simp [Datum.kind?] at hkind

/-- A loop that returns a variable is accepted, to a strict tree. -/
theorem returning_loop_strict :
    ∃ a, (Session.lower true false (.node "PROGRAM" .null [.node "BLOCK" .null [.node "WHILE" .null
        [.node "LITERAL" (.text "1") [] none, .node "BRACED_BLOCK" .null [.node "BLOCK" .null
          [.node "RETURN" .null [.node "IDENTIFIER" (.text "x") [] none] none] none] none]
        none] none] none)).answer = .ok a ∧ a.Strict := by
  have haccepted : ∃ a, (Session.lower true false (.node "PROGRAM" .null [.node "BLOCK" .null
      [.node "WHILE" .null [.node "LITERAL" (.text "1") [] none, .node "BRACED_BLOCK" .null
        [.node "BLOCK" .null [.node "RETURN" .null [.node "IDENTIFIER" (.text "x") [] none] none]
        none] none] none] none] none)).answer = .ok a := ⟨_, rfl⟩
  obtain ⟨a, ha⟩ := haccepted
  refine ⟨a, ha, (accepted_trees_fit ha).2.2.mpr ?_⟩
  simp [Datum.Orderly, Datum.nodes, Datum.nodesOfAll, Datum.HoldsStatements, Datum.kind?,
    Datum.children, Datum.OneOf, Datum.statementKinds]

/-- A program inside a program is accepted, and the tree that it gives is not strict. -/
theorem inner_program_accepted :
    ∃ a, (Session.lower true false (.node "PROGRAM" .null [.node "BLOCK" .null
        [.node "PROGRAM" .null [.node "BLOCK" .null [] none] none] none] none)).answer = .ok a ∧
      ¬ a.Strict := by
  refine ⟨_, rfl, fun hstrict => ?_⟩
  obtain ⟨-, hinner⟩ := Ast.strict_iff.mp hstrict
  obtain ⟨hfits, -⟩ := Ast.strict_iff.mp (hinner _ List.mem_cons_self)
  obtain ⟨r, hr, rfl⟩ := hfits _ List.mem_cons_self
  cases hr

end Bronti
