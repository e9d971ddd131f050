import Bronti.Proofs.Observation
import Mathlib.Algebra.Order.BigOperators.Group.List
import Mathlib.Algebra.Order.Group.Nat

/-!
Parentheses. Programs that are the same but for parentheses behave alike, whatever stands in the
parentheses and wherever they stand; only the lines of errors may differ. A run with more
parentheses takes more steps, by a factor that the tree bounds.
-/
namespace Bronti

namespace Ast

/-- What stands in parentheses, or else the node itself. -/
def unwrap : Ast → Ast
  | parens inner _ => inner
  | a => a

/-- A tree without its parentheses. -/
def bare : Ast → Ast := rewrite unwrap

/-- The number of parentheses directly around what a node holds. -/
def wraps : Ast → Nat
  | parens inner _ => inner.wraps + 1
  | _ => 0

theorem wraps_mapChildren {f : Ast → Ast} {a : Ast} (h : a.wraps = 0) :
    (a.mapChildren f).wraps = 0 := by
  cases a with
  | parens inner span => cases h
  | _ => rfl

theorem unwrap_eq {a : Ast} (h : a.wraps = 0) : a.unwrap = a := by
  cases a with
  | parens inner span => cases h
  | _ => rfl

/-- No parentheses are left. -/
theorem wraps_of_mem_bare (a : Ast) : ∀ b ∈ a.bare.nodes, b.wraps = 0 := by
  apply forall_nodes_rewrite
  intro a h
  by_cases ha : a.wraps = 0
  · intro c hc
    rw [unwrap_eq ha] at hc
    obtain rfl | ⟨b, hb, hc⟩ := mem_nodes.mp hc
    · exact ha
    · exact h b hb c hc
  · cases a with
    | parens inner span => exact h inner (by simp [children])
    | _ => exact absurd rfl ha

theorem bare_eq {a : Ast} (h : a.wraps = 0) : a.bare = a.mapChildren bare := by
  unfold bare
  rw [rewrite_eq, unwrap_eq (wraps_mapChildren h)]

theorem bare_bare (a : Ast) : a.bare.bare = a.bare := by
  by_cases h : a.wraps = 0
  · rw [bare_eq h, bare_eq (wraps_mapChildren h), mapChildren_mapChildren]
    apply mapChildren_congr
    intro b hb
    have := sizeOf_lt_of_child hb
    exact bare_bare b
  · cases a with
    | parens inner span => exact bare_bare inner
    | _ => exact absurd rfl h
termination_by sizeOf a

end Ast

/-- The same tree but for parentheses, where no more than `most` of them stand directly around one
another in the second one. -/
structure Unwrapped (most : Nat) (a b : Ast) : Prop where
  bare : a.bare = b.bare
  wraps : ∀ c ∈ b.nodes, c.wraps ≤ most

namespace Unwrapped

variable {most : Nat} {a b : Ast}

theorem child (h : Unwrapped most a b) {x y : Ast} (hxy : x.bare = y.bare) (hy : y ∈ b.children) :
    Unwrapped most x y :=
  ⟨hxy, fun c hc => h.wraps c (Ast.mem_nodes_of_child hy hc)⟩

theorem inner {span : Option Span} (h : Unwrapped most a (.parens b span)) : Unwrapped most a b :=
  h.child h.bare (by simp [Ast.children])

end Unwrapped

/-- Trees that are the same but for parentheses; their spans need not be the same. -/
def Likeness.unwrapped (most : Nat) : Likeness :=
  sameNames True (fun _ _ => True) (Unwrapped most) fun _ => trivial

theorem unwrapped_matched {most depth : Nat} {a b : Ast} (h : Unwrapped most a b)
    (ha : a.wraps = 0) (hb : b.wraps = 0) :
    (Likeness.unwrapped most).correspondence.Matched depth a b := by
  have heq := h.bare
  rw [Ast.bare_eq ha, Ast.bare_eq hb] at heq
  exact Likeness.matched_of_mapChildren (fun _ => rfl) (fun _ => rfl) (fun _ _ => trivial)
    (fun _ _ _ hy hxy => h.child hxy hy) (congrArg Ast.withoutSpan heq)

section Transparency

variable {most n m depth : Nat} {a b : Ast}

/-- A second tree in parentheses has them taken off first, in as many steps as there are. -/
theorem follows_peeled (hr : (Likeness.unwrapped most).correspondence.Respects (eval n) (eval m))
    (hle : n ≤ m) (h : Unwrapped most a b) (ha : a.wraps = 0) :
    (Likeness.unwrapped most).correspondence.Follows depth Eq (eval (n + 1) a)
      (eval (m + 1 + b.wraps) b) := by
  generalize hk : b.wraps = k
  induction k generalizing b with
  | zero => exact Correspondence.eval_follows hr hle (.inl trivial) (unwrapped_matched h ha hk)
  | succ k ih =>
    cases b with
    | parens inner span => exact (ih h.inner (Nat.succ.inj hk)).visitSecond _
    | _ => cases hk

/-- A tree runs like one that is the same but for parentheses, if that one has the steps for the
parentheses of every node on the way. The induction is on the steps of the first run, which may take
off parentheses of its own. -/
theorem unwrapped_respects (h : n * (most + 1) + most ≤ m) :
    (Likeness.unwrapped most).correspondence.Respects (eval n) (eval m) := by
  induction n generalizing m with
  | zero => exact fun _ _ _ _ _ _ _ => .late trivial _
  | succ n ih =>
    intro depth a b hab
    rw [Nat.succ_mul] at h
    by_cases ha : a.wraps = 0
    · have hb : b.wraps ≤ most := hab.wraps b b.mem_nodes_self
      obtain ⟨k, rfl⟩ : ∃ k, m = k + 1 + b.wraps := ⟨m - 1 - b.wraps, by omega⟩
      have hk : n * (most + 1) + most ≤ k := by omega
      have hle : n ≤ k := by
        have hn : n ≤ n * (most + 1) := Nat.le_mul_of_pos_right n most.succ_pos
        omega
      exact follows_peeled (ih hk) hle hab ha
    · cases a with
      | parens inner span =>
        have hinner : Unwrapped most inner b := ⟨hab.bare, hab.wraps⟩
        exact (ih (by omega) depth inner b hinner).visitFirst _
      | _ => exact absurd rfl ha

/-- The parentheses directly around a node of a tree have a bound. -/
theorem exists_wraps_le (a : Ast) : ∃ most, ∀ b ∈ a.nodes, b.wraps ≤ most := by
  refine ⟨(a.nodes.map Ast.wraps).sum, fun b hb => ?_⟩
  exact List.le_sum_of_mem (List.mem_map_of_mem hb)

/-- What a program comes to, one that is the same but for parentheses comes to as well. -/
theorem comesTo_of_bare_eq {tracing : Bool} {as bs : List Ast} {span span' : Option Span}
    (h : (Ast.program as span).bare = (Ast.program bs span').bare) {e : Except _ Int × String}
    (he : ComesTo tracing Stop.cause (.program as span) e) :
    ComesTo tracing Stop.cause (.program bs span') e := by
  obtain ⟨n, hn⟩ := he
  obtain ⟨most, hmost⟩ := exists_wraps_le (.program bs span')
  have hchildren : List.Forall₂ (Unwrapped most) as bs := by
    have hmap : as.map Ast.bare = bs.map Ast.bare := by
      rw [Ast.bare_eq rfl, Ast.bare_eq rfl] at h
      simp only [Ast.mapChildren, Ast.program.injEq] at h
      exact h.1
    have hunwrapped : Unwrapped most (.program as span) (.program bs span') := ⟨h, hmost⟩
    exact forall₂_of_map_eq hmap fun _ _ _ hy hxy => hunwrapped.child hxy hy
  have htied := Likeness.evaluate_tied (unwrapped_respects (n := n) (Nat.le_refl _)) tracing
    (.program as span) (.program bs span') hchildren
  exact ⟨_, htied.seen_of_seen (fun _ _ h => h.cause_eq) hn⟩

/-- Parentheses mean nothing: a program comes to what it comes to without any of them, inside the
bodies of its functions too. It ends in one case if in the other, with the same code, or with an
error of the same kind and message if not on the same line, and with the same output. -/
theorem parentheses_transparent (tracing : Bool) (children : List Ast) (span : Option Span) :
    (∀ a ∈ (Ast.program children span).bare.nodes, a.wraps = 0) ∧
      ∀ e, ComesTo tracing Stop.cause (Ast.program children span).bare e ↔
        ComesTo tracing Stop.cause (.program children span) e := by
  refine ⟨Ast.wraps_of_mem_bare _, fun e => ?_⟩
  have hroot : (Ast.program children span).bare = .program (children.map Ast.bare) span :=
    Ast.bare_eq rfl
  have hbare : (Ast.program (children.map Ast.bare) span).bare =
      (Ast.program children span).bare := by
    rw [← hroot]
    exact Ast.bare_bare _
  rw [hroot]
  exact ⟨comesTo_of_bare_eq hbare, comesTo_of_bare_eq hbare.symm⟩

end Transparency

end Bronti
