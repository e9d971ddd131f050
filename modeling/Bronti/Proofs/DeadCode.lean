import Bronti.Proofs.Observation
import Bronti.Proofs.Returning

/-!
Code after a return. What follows a return in a block is never evaluated, and a function that it
defines is never defined: programs behave the same without it.
-/
namespace Bronti

namespace Ast

/-- Statements up to the first return, and none after it. -/
def upToReturn : List Ast → List Ast
  | [] => []
  | a :: as => if a.kind = "RETURN" then [a] else a :: upToReturn as

theorem mem_of_mem_upToReturn {a : Ast} {as : List Ast} (h : a ∈ upToReturn as) : a ∈ as := by
  induction as with
  | nil => exact h
  | cons b as ih =>
    unfold upToReturn at h
    split at h
    · exact List.mem_cons.mpr (.inl (List.mem_singleton.mp h))
    · exact List.mem_cons.mpr ((List.mem_cons.mp h).imp_right ih)

theorem upToReturn_ends {as before after : List Ast} {a : Ast}
    (h : upToReturn as = before ++ a :: after) (ha : a.kind = "RETURN") : after = [] := by
  induction as generalizing before with
  | nil => simp [upToReturn] at h
  | cons b as ih =>
    unfold upToReturn at h
    split at h
    · cases before with
      | nil => exact (List.cons.inj h).2.symm
      | cons c before => simp at h
    · next hb =>
      cases before with
      | nil =>
        cases h
        exact absurd ha hb
      | cons c before => exact ih (List.cons.inj h).2

/-- The node is not a block in which something stands behind a return. -/
def ReturnsLast (a : Ast) : Prop :=
  ∀ before b after span, a = block (before ++ b :: after) span → b.kind = "RETURN" → after = []

/-- A block that ends with its first return, if it has one. -/
def cutBlock : Ast → Ast
  | block as span => block (upToReturn as) span
  | a => a

/-- A tree in which every block ends with its first return, if it has one. -/
def cut : Ast → Ast := rewrite cutBlock

theorem cut_block (as : List Ast) (span : Option Span) :
    (block as span).cut = block (upToReturn (as.map cut)) span := by
  unfold cut
  rw [rewrite_eq]
  rfl

theorem cut_eq {a : Ast} (h : ∀ as span, a ≠ block as span) : a.cut = a.mapChildren cut := by
  unfold cut
  rw [rewrite_eq]
  cases a with
  | block as span => exact absurd rfl (h as span)
  | _ => rfl

theorem returnsLast_of_mem_cut (a : Ast) : ∀ b ∈ a.cut.nodes, b.ReturnsLast := by
  apply forall_nodes_rewrite
  intro a h c hc
  obtain rfl | ⟨b, hb, hc⟩ := mem_nodes.mp hc
  · intro before b after span heq hkind
    cases a with
    | block as _ => exact upToReturn_ends (block.inj heq).1 hkind
    | _ => cases heq
  · refine h b ?_ c hc
    cases a with
    | block as _ => exact mem_of_mem_upToReturn hb
    | _ => exact hb

theorem span_cut (a : Ast) : a.cut.span = a.span := by
  by_cases h : ∃ as span, a = block as span
  · obtain ⟨as, span, rfl⟩ := h
    rw [cut_block]
    rfl
  · rw [cut_eq fun as span ha => h ⟨as, span, ha⟩, span_mapChildren]

end Ast

open Eval

/-- A node that is to return does so, if it ends without a break. -/
theorem returned_of_kind {a : Ast} (ha : a.kind = "RETURN") {steps : Nat} {s : State} (r : Result)
    (t : State) (h : eval steps a s = .done r t) : ∃ n, r = .returned n := by
  cases steps with
  | zero => cases h
  | succ steps =>
    obtain ⟨_, _, _, hnode⟩ := done_of_bind h
    cases a with
    | result value span =>
      obtain ⟨n, _, _, hr⟩ := done_of_bind hnode
      cases hr
      exact ⟨n, rfl⟩
    | broken kind flaw span => cases hnode
    | _ => simp [Ast.kind] at ha

/-- What stands after a return in a block changes nothing. -/
theorem statements_upToReturn (steps : Nat) (as : List Ast) :
    statementsWith (eval steps) (Ast.upToReturn as) = statementsWith (eval steps) as := by
  induction as with
  | nil => rfl
  | cons a as ih =>
    unfold Ast.upToReturn
    split
    · next ha =>
      funext s
      rw [statements_returning [] (returned_of_kind ha),
        statements_returning as (returned_of_kind ha)]
    · rw [statementsWith, statementsWith, ih]

/-- Trees of which the second one is the first one with its blocks cut. -/
def Likeness.cutting : Likeness :=
  sameNames False Eq (fun a b => b = a.cut) fun {a _} h => h ▸ a.span_cut.symm

/-- A tree runs like the one with its blocks cut. A cut block does not match the block that it was
made of, so the induction on the steps is done here, with these blocks apart. -/
theorem cut_respects (steps : Nat) :
    Likeness.cutting.correspondence.Respects (eval steps) (eval steps) := by
  induction steps with
  | zero => exact fun _ _ _ _ _ _ _ => .unfinished
  | succ steps ih =>
    rintro depth a _ rfl
    by_cases h : ∃ as span, a = .block as span
    · obtain ⟨as, span, rfl⟩ := h
      have hblock : Likeness.cutting.correspondence.Follows depth Eq
          (statementsWith (eval steps) as)
          (statementsWith (eval steps) (Ast.upToReturn (as.map Ast.cut))) := by
        rw [statements_upToReturn]
        exact Correspondence.statements_follow ih (forall₂_map_right fun _ _ => rfl)
      rw [Ast.cut_block]
      exact (hblock.visitSecond _).visitFirst _
    · have hmatched : Likeness.cutting.correspondence.Matched depth a (a.mapChildren Ast.cut) :=
        Likeness.matched_mapChildren (fun _ => rfl) (fun _ => rfl) (fun _ => rfl) fun _ _ => rfl
      rw [Ast.cut_eq fun as span ha => h ⟨as, span, ha⟩]
      exact Correspondence.eval_follows ih (Nat.le_refl steps) (.inr rfl) hmatched

/-- A program shows what it shows with its blocks cut. -/
theorem cut_unobservable (steps : Nat) (tracing : Bool) (children : List Ast)
    (span : Option Span) :
    (evaluate steps tracing (Ast.program children span).cut).seen id =
      (evaluate steps tracing (.program children span)).seen id := by
  have hroot : (Ast.program children span).cut = .program (children.map Ast.cut) span :=
    Ast.cut_eq fun _ _ => Ast.noConfusion
  have htied := Likeness.cutting.evaluate_tied (cut_respects steps) tracing (.program children span)
    (.program (children.map Ast.cut) span) (forall₂_map_right fun _ _ => rfl)
  rw [hroot]
  exact (htied.seen_eq fun _ _ h => h.eq fun _ _ hxy => hxy).symm

/-- Code after a return is dead. A program whose blocks are all cut after their first return ends as
before and as soon, with the same code or the same error on the same line, and with the same output.
And wherever a return stands in blocks, braces, branches and loops, these end with it: only their
frames are closed, and no other node is visited. A call whose function was entered just before them
ends with the value, and the program does if there is no such call. -/
theorem code_after_return_dead (steps : Nat) (tracing : Bool) (children : List Ast)
    (span : Option Span) :
    (∀ a ∈ (Ast.program children span).cut.nodes, a.ReturnsLast) ∧
      (evaluate steps tracing (Ast.program children span).cut).seen id =
        (evaluate steps tracing (.program children span)).seen id ∧
      ∀ goal n s, goal.run = .done (.returned n) s → ∀ p k, Reaches goal p k →
        ∃ t, s.closed? k = some t ∧ t.visits = s.visits ∧ p.run = .done (.returned n) t ∧
          (∀ q, Calls q p → ∃ u, t.close? = some u ∧ q.run = .done (.int n) u) ∧
          ∀ a rest, children = a :: rest → p = ⟨steps, a, .initial tracing⟩ →
            evaluate steps tracing (.program children span) = .done n t := by
  refine ⟨Ast.returnsLast_of_mem_cut _, cut_unobservable steps tracing children span,
    fun goal n s hgoal p k hp => ?_⟩
  obtain ⟨t, ht, hrun⟩ := return_passes hp hgoal
  refine ⟨t, ht, State.visits_closed ht, hrun, fun q hq => return_ends_call hq hrun, ?_⟩
  rintro a rest rfl rfl
  exact return_ends_program rest span hrun

/-- A function that loops forever but for a return in a block of its own, and that would print after
it, in the loop and behind the loop: a call gives the value, and nothing is printed. -/
theorem return_leaves_endless_loop :
    let two : Ast := .literal "2" none
    let print : Ast := .statement (.call "println" [two] none) none
    let body : Ast := .block [.loop (.operation two "==" two none)
      (.braced [.block [.result two none, print] none] none) none, print] none
    let s : State := ⟨⟨[], [("f", ⟨[], body⟩)]⟩, [], [], false, []⟩
    Reaches ⟨5, .result two none, s.opened.opened⟩ ⟨9, body, s.opened⟩ 1 ∧
      Calls ⟨10, .call "f" [] none, s⟩ ⟨9, body, s.opened⟩ ∧
      eval 10 (.call "f" [] none) s = .done (.int 2) s := by
  intro two print body s
  have hreturn : Point.run ⟨5, .result two none, s.opened.opened⟩ =
      .done (.returned 2) s.opened.opened := rfl
  have hreaches : Reaches ⟨5, .result two none, s.opened.opened⟩ ⟨9, body, s.opened⟩ 1 :=
    .block [] rfl (.loop .none rfl (.braced (.block [] rfl .here)))
  have hcalls : Calls ⟨10, .call "f" [] none, s⟩ ⟨9, body, s.opened⟩ :=
    .mk ⟨[], body⟩ rfl rfl rfl rfl
  obtain ⟨t, ht, _, _, hcall, _⟩ :=
    (code_after_return_dead 0 false [] none).2.2 _ _ _ hreturn _ _ hreaches
  cases ht
  obtain ⟨u, hu, hrun⟩ := hcall _ hcalls
  cases hu
  exact ⟨hreaches, hcalls, hrun⟩

end Bronti
