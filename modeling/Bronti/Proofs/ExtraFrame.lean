import Bronti.Proofs.Observation
import Mathlib.Data.List.InsertIdx

/-!
An empty frame more. While nothing is declared in it, every search passes it over and every change
is made in the frames around it, so that a run with it ends as the run without it does.
-/
namespace Bronti

/-! ## Frames around an empty one -/

namespace Chain

variable (x : String) (fs : Chain) (k : Nat)

theorem value?_insertIdx : value? (fs.insertIdx k .empty) x = value? fs x := by
  induction fs generalizing k with
  | nil => cases k <;> rfl
  | cons f fs ih =>
    cases k with
    | zero => rfl
    | succ k => simp only [List.insertIdx_succ_cons, value?, ih]

theorem isDefined_insertIdx : isDefined (fs.insertIdx k .empty) x = isDefined fs x := by
  induction fs generalizing k with
  | nil => cases k <;> rfl
  | cons f fs ih =>
    cases k with
    | zero => rfl
    | succ k => simp only [List.insertIdx_succ_cons, isDefined_cons, ih]

theorem function?_insertIdx : function? (fs.insertIdx k .empty) x = function? fs x := by
  induction fs generalizing k with
  | nil => cases k <;> rfl
  | cons f fs ih =>
    cases k with
    | zero => rfl
    | succ k => simp only [List.insertIdx_succ_cons, function?, ih]

theorem set?_insertIdx (n : Int) :
    set? x n (fs.insertIdx k .empty) = (set? x n fs).map (·.insertIdx k .empty) := by
  induction fs generalizing k with
  | nil => cases k <;> rfl
  | cons f fs ih =>
    cases k with
    | zero => rfl
    | succ k =>
      simp only [List.insertIdx_succ_cons, set?, ih]
      split
      · rfl
      · cases set? x n fs <;> rfl

end Chain

/-- Where an empty frame is inserted: the number of frames inside it, and the number of frames that
there are outside the innermost one. -/
structure Insertion where
  inside : Nat
  outer : Nat

namespace Insertion

/-- The insertion once a frame is opened. -/
def opened (w : Insertion) : Insertion := ⟨w.inside + 1, w.outer + 1⟩

/-- The second state has an empty frame more. -/
structure States (w : Insertion) (s t : State) : Prop where
  frames : t.frames = s.frames.insertIdx w.inside .empty
  inside_le : w.inside ≤ w.outer + 1
  outer : s.outer.length = w.outer
  printed : t.printed = s.printed

namespace States

variable {w : Insertion} {s t : State} {x : String}

theorem visit_first (h : w.States s t) (a : Ast) : w.States (s.visit a) t := by
  unfold State.visit
  split
  · exact ⟨h.frames, h.inside_le, h.outer, h.printed⟩
  · exact h

theorem visit_second (h : w.States s t) (a : Ast) : w.States s (t.visit a) := by
  unfold State.visit
  split
  · exact ⟨h.frames, h.inside_le, h.outer, h.printed⟩
  · exact h

/-- With a frame inside the empty one, the innermost frames are the same. -/
theorem split_frames (h : w.States s t) (hw : 0 < w.inside) :
    t.inner = s.inner ∧ t.outer = s.outer.insertIdx (w.inside - 1) .empty := by
  obtain ⟨k, hk⟩ := Nat.exists_eq_succ_of_ne_zero (Nat.ne_of_gt hw)
  have hframes := h.frames
  simp only [State.frames, hk, Nat.succ_eq_add_one, List.insertIdx_succ_cons, List.cons.injEq]
    at hframes
  simpa [hk] using hframes

/-- Other frames may stand in the place of the innermost ones. -/
theorem with_inner (h : w.States s t) (hw : 0 < w.inside) (f : Frame) :
    w.States { s with inner := f } { t with inner := f } := by
  obtain ⟨-, houter⟩ := h.split_frames hw
  obtain ⟨k, hk⟩ := Nat.exists_eq_succ_of_ne_zero (Nat.ne_of_gt hw)
  refine ⟨?_, h.inside_le, h.outer, h.printed⟩
  simp [State.frames, houter, hk]

theorem set (h : w.States s t) (n : Int) :
    Option.Rel w.States (s.set? x n) (t.set? x n) := by
  have hframes : (t.set? x n).map State.frames =
      ((s.set? x n).map State.frames).map (·.insertIdx w.inside .empty) := by
    rw [State.frames_set, State.frames_set, h.frames, Chain.set?_insertIdx]
  cases hs : s.set? x n with
  | none =>
    have ht : t.set? x n = none := by simpa [hs] using hframes
    rw [ht]
    exact .none
  | some s' =>
    rw [hs] at hframes
    obtain ⟨t', ht, hframes'⟩ := Option.map_eq_some_iff.mp hframes
    rw [ht]
    refine .some ⟨hframes', h.inside_le, ?_, ?_⟩
    · have hlength := (State.kept_set hs).length_eq
      simpa [State.frames, h.outer] using hlength.symm
    · rw [State.printed_set ht, State.printed_set hs, h.printed]

theorem declare (h : w.States s t) (hw : 0 < w.inside) :
    Option.Rel w.States (s.declare? x) (t.declare? x) := by
  obtain ⟨hinner, -⟩ := h.split_frames hw
  simp only [State.declare?, hinner]
  split
  · exact .none
  · exact .some (h.with_inner hw _)

theorem declareFunction (h : w.States s t) (hw : 0 < w.inside) (g : Function) :
    Option.Rel w.States (s.declareFunction? x g) (t.declareFunction? x g) := by
  obtain ⟨hinner, -⟩ := h.split_frames hw
  simp only [State.declareFunction?, hinner]
  split
  · exact .none
  · exact .some (h.with_inner hw _)

theorem callBuiltin (h : w.States s t) (ns : List Int) :
    Option.Rel w.States (s.callBuiltin? x ns) (t.callBuiltin? x ns) := by
  unfold State.callBuiltin?
  split
  · exact .some ⟨h.frames, h.inside_le, h.outer, congrArg (ns :: ·) h.printed⟩
  · exact .none

theorem opened (h : w.States s t) : w.opened.States s.opened t.opened where
  frames := congrArg (Frame.empty :: ·) h.frames
  inside_le := Nat.succ_le_succ h.inside_le
  outer := congrArg Nat.succ h.outer
  printed := h.printed

theorem close (h : w.opened.States s t) :
    ∃ u v, s.close? = some u ∧ t.close? = some v ∧ w.States u v := by
  obtain ⟨-, houter⟩ := h.split_frames (Nat.succ_pos _)
  have hlength := h.outer
  have hle := h.inside_le
  cases hs : s.outer with
  | nil => simp [hs, Insertion.opened] at hlength
  | cons f fs =>
    have hframes : t.outer = (f :: fs).insertIdx w.inside .empty := by
      simpa [hs, Insertion.opened] using houter
    have hfs : fs.length = w.outer := by simpa [hs, Insertion.opened] using hlength
    cases ht : t.outer with
    | nil =>
      have hempty := congrArg List.length hframes
      simp [ht, List.length_insertIdx] at hempty
      split at hempty <;> omega
    | cons g gs =>
      refine ⟨_, _, State.close?_of_outer hs, State.close?_of_outer ht, ?_, ?_, hfs, h.printed⟩
      · exact ht.symm.trans hframes
      · simpa [Insertion.opened] using hle

end States

end Insertion

namespace Ast

/-- Nothing is declared in the frame that the node is evaluated in. What is declared in braces is
declared in a frame of their own. -/
inductive Undeclaring : Ast → Prop
  | braced {children : List Ast} {span : Option Span} : Undeclaring (.braced children span)
  | other {a : Ast} (h : a.isDeclaration = false) (inner : ∀ b ∈ a.children, Undeclaring b) :
      Undeclaring a

theorem Undeclaring.isDeclaration {a : Ast} (h : a.Undeclaring) : a.isDeclaration = false := by
  cases h with
  | braced => rfl
  | other h _ => exact h

theorem Undeclaring.child {a b : Ast} (h : a.Undeclaring) (ha : a.opensFrame = false)
    (hb : b ∈ a.children) : b.Undeclaring := by
  cases h with
  | braced => cases ha
  | other _ inner => exact inner b hb

end Ast

/-- States of which the second has an empty frame more, in which nothing is declared. -/
def Correspondence.extraFrame : Correspondence Insertion where
  late := False
  vars := Eq
  funs := Eq
  spans := Eq
  functions := Eq
  tree w a b := a = b ∧ (w.inside = 0 → a.Undeclaring)
  state w := w.States
  inside w := w.opened
  declares w := 0 < w.inside
  span_rel h := congrArg Ast.span h.1
  repeated_eq h := by rw [List.forall₂_eq_eq_eq] at h; rw [h]
  params_rel h := by rw [h, List.forall₂_eq_eq_eq]
  body_rel w h := ⟨congrArg Function.body h, fun hw => nomatch hw⟩
  visit_first a h := h.visit_first a
  visit_second a h := h.visit_second a
  value_eq := by
    rintro w s t x _ h rfl
    rw [h.frames, Chain.value?_insertIdx]
  isDefined_eq := by
    rintro w s t x _ h rfl
    rw [h.frames, Chain.isDefined_insertIdx]
  function_rel := by
    rintro w s t x _ h rfl
    rw [h.frames, Chain.function?_insertIdx]
    cases Chain.function? s.frames x with
    | none => exact .none
    | some f => exact .some rfl
  declare_rel := by
    rintro w s t x _ hw h rfl
    exact h.declare hw
  set_rel := by
    rintro w s t x _ n h rfl
    exact h.set n
  declareFunction_rel := by
    rintro w s t x _ f _ hw h rfl rfl
    exact h.declareFunction hw f
  callBuiltin_rel := by
    rintro w s t x _ ns h rfl
    exact h.callBuiltin ns
  declares_inside _ := Nat.succ_pos _
  opened_rel h := h.opened
  close_rel h := h.close

theorem extraFrame_matched (w : Insertion) {a b : Ast} (h : Correspondence.extraFrame.tree w a b) :
    Correspondence.extraFrame.Matched w a b := by
  obtain ⟨rfl, ha⟩ := h
  have hself : Correspondence.extraFrame.Matched w a ((a.mapChildren id).renameOwn id id) := by
    refine Correspondence.matched_renameOwn (fun hdecl => ?_) (fun _ _ => rfl) (fun _ => rfl)
      (fun _ => rfl) (fun b hb => ⟨rfl, fun hw => ?_⟩) fun params body _ _ => ?_
    · by_contra hw
      have hfree := (ha (Nat.eq_zero_of_not_pos hw)).isDeclaration
      rw [hdecl] at hfree
      cases hfree
    · cases hopens : a.opensFrame with
      | true => simp [hopens, Correspondence.extraFrame, Insertion.opened] at hw
      | false =>
        rw [hopens] at hw
        exact (ha hw).child hopens hb
    · exact congrArg (Function.mk · body) (List.map_id params).symm
  rwa [Ast.mapChildren_id, Ast.renameOwn_id] at hself

/-- A run with an empty frame more, in which nothing is declared, ends as the run without it. -/
theorem extraFrame_tied (steps : Nat) {a : Ast} {s t : State} {k : Nat} (hk : k ≤ s.depth)
    (ha : k = 0 → a.Undeclaring) (hframes : t.frames = s.frames.insertIdx k .empty)
    (hprinted : t.printed = s.printed) :
    (eval steps a s).Tied False Eq Eq
      (fun u v => v.frames = u.frames.insertIdx k .empty ∧ v.printed = u.printed)
      (eval steps a t) := by
  have hrespects := Correspondence.extraFrame.eval_respects
    (fun w _ _ h => extraFrame_matched w h) (Nat.le_refl steps) (.inr rfl)
  have hstates : Insertion.States ⟨k, s.outer.length⟩ s t := ⟨hframes, hk, rfl, hprinted⟩
  have htied := hrespects ⟨k, s.outer.length⟩ a a ⟨rfl, ha⟩ s t hstates
  exact htied.mono (fun _ _ h => h) (fun _ _ h => h.eq fun _ _ h => h)
    fun _ _ h => ⟨h.frames, h.printed⟩

end Bronti
