import Bronti.Proofs.Defects
import Bronti.Proofs.Unspanned

/-!
Tracing only observes. A run that is traced and one that is not come to the same, from states that
are the same but for what was traced, and so do lowering and whole sessions.
-/
namespace Bronti

variable {α β : Type}

/-- The state as if nothing had been traced. -/
def State.untraced (s : State) : State := { s with tracing := false, visits := [] }

/-- The outcome as if nothing had been traced. -/
def Outcome.untraced : Outcome α → Outcome α
  | .done a s => .done a s.untraced
  | .stopped e s => .stopped e s.untraced
  | .unfinished => .unfinished

/-- The session as if nothing had been traced. -/
def Session.untraced (s : Session α) : Session α := { s with trace := "" }

theorem State.output_of_untraced {s t : State} (h : s.untraced = t.untraced) :
    s.output = t.output := by
  change s.untraced.output = t.untraced.output
  rw [h]

/-! ## Evaluation -/

namespace Likeness

variable {late : Prop}

theorem functions_same (f g : Function) : (same late).Functions f g ↔ f = g := by
  have hparams : List.Forall₂ (same late).vars f.params g.params ↔ f.params = g.params :=
    forall₂_iff_eq fun _ _ => Iff.rfl
  obtain ⟨params, body⟩ := f
  obtain ⟨params', body'⟩ := g
  rw [Function.mk.injEq]
  exact ⟨fun h => ⟨hparams.mp h.params, h.body⟩, fun h => ⟨hparams.mpr h.1, h.2⟩⟩

theorem frames_same (f g : Frame) : (same late).Frames f g ↔ f = g := by
  have hvars : List.Forall₂ (Bound (same late).vars Eq) f.vars g.vars ↔ f.vars = g.vars :=
    forall₂_iff_eq (bound_iff id fun _ _ => Iff.rfl)
  have hfuns : List.Forall₂ (Bound (same late).funs (same late).Functions) f.funs g.funs ↔
      f.funs = g.funs := forall₂_iff_eq (bound_iff id functions_same)
  obtain ⟨vars, funs⟩ := f
  obtain ⟨vars', funs'⟩ := g
  rw [Frame.mk.injEq]
  exact ⟨fun h => ⟨hvars.mp h.vars, hfuns.mp h.funs⟩, fun h => ⟨hvars.mpr h.1, hfuns.mpr h.2⟩⟩

theorem states_same {s t : State} {depth : Nat} :
    (same late).States depth s t ↔ s.outer.length = depth ∧ s.untraced = t.untraced := by
  have houter : List.Forall₂ (same late).Frames s.outer t.outer ↔ s.outer = t.outer :=
    forall₂_iff_eq frames_same
  simp only [State.untraced, State.mk.injEq, and_true]
  constructor
  · intro h
    exact ⟨h.depth, (frames_same _ _).mp h.inner, houter.mp h.outer, h.printed⟩
  · rintro ⟨hdepth, hinner, hframes, hprinted⟩
    exact ⟨(frames_same _ _).mpr hinner, houter.mpr hframes, hdepth, hprinted⟩

theorem self_respects (steps : Nat) :
    (same False).correspondence.Respects (eval steps) (eval steps) :=
  same_respects (Nat.le_refl steps) (.inr rfl)

/-- Outcomes that are alike are the same but for what was traced. -/
theorem untraced_of_tied {depth : Nat} {o p : Outcome α}
    (h : o.Tied False Eq (same False).correspondence.stop ((same False).States depth) p) :
    o.untraced = p.untraced := by
  cases h with
  | done answer state => simp only [Outcome.untraced, answer, (states_same.mp state).2]
  | stopped stop state =>
    simp only [Outcome.untraced, stop.eq fun _ _ h => h, (states_same.mp state).2]
  | unfinished => rfl
  | late h _ => exact h.elim

end Likeness

/-- What was traced before makes no difference to what a node comes to. -/
theorem eval_untraced (steps : Nat) (a : Ast) {s t : State} (h : s.untraced = t.untraced) :
    (eval steps a s).untraced = (eval steps a t).untraced := by
  have hst : (Likeness.same False).States s.outer.length s t := Likeness.states_same.mpr ⟨rfl, h⟩
  exact Likeness.untraced_of_tied (Likeness.self_respects steps _ a a rfl s t hst)

theorem evaluate_untraced (steps : Nat) (tracing : Bool) (tree : Ast) :
    (evaluate steps tracing tree).untraced = (evaluate steps false tree).untraced := by
  have htied := Correspondence.evaluate_tied (Likeness.self_respects steps)
    (Likeness.States.initial _ tracing false) tree tree (List.forall₂_same.mpr fun _ _ => rfl)
  exact Likeness.untraced_of_tied htied

/-! ## Sessions -/

namespace Session

theorem untraced_andThen (s : Session α) (f : α → Session β) :
    (s.andThen f).untraced = s.untraced.andThen fun a => (f a).untraced := by
  unfold andThen untraced
  cases s.answer <;> rfl

theorem readProgram_untraced (file : String) (tracing : Bool) (text : String) :
    (readProgram file tracing text).untraced = (readProgram file false text).untraced := by
  unfold readProgram
  split <;> rfl

theorem lower_untraced (whole tracing : Bool) (d : Datum) :
    (lower whole tracing d).untraced = (lower whole false d).untraced := by
  have hanswer : (lower whole tracing d).answer = (lower whole false d).answer := by
    rw [lower_answer, lower_answer, (lowering_settles whole d).eq]
  have hprinted : ∀ tracing, (lower whole tracing d).printed = "" := by
    intro tracing
    unfold lower
    dsimp only
    split <;> rfl
  simp only [untraced, hanswer, hprinted]

theorem run_untraced (tracing : Bool) (a : Ast) :
    (run tracing a).untraced = (run false a).untraced := by
  have h := evaluate_untraced enoughSteps tracing a
  unfold run
  generalize evaluate enoughSteps tracing a = o at h ⊢
  generalize evaluate enoughSteps false a = p at h ⊢
  -- outcomes of two forms are not the same, traced or not
  cases o <;> cases p <;> simp only [Outcome.untraced, reduceCtorEq, Outcome.done.injEq,
    Outcome.stopped.injEq] at h
  case done.done => simp only [untraced, h.1, State.output_of_untraced h.2]
  case stopped.stopped => simp only [untraced, h.1, State.output_of_untraced h.2]
  case unfinished.unfinished => rfl

theorem lowerText_untraced (file : String) (tracing : Bool) (text : String) :
    (lowerText file tracing text).untraced = (lowerText file false text).untraced := by
  simp only [lowerText, untraced_andThen, readProgram_untraced file tracing,
    lower_untraced true tracing]

theorem runText_untraced (file : String) (tracing : Bool) (text : String) :
    (runText file tracing text).untraced = (runText file false text).untraced := by
  simp only [runText, untraced_andThen, lowerText_untraced file tracing, run_untraced tracing]

end Session

/-- Tracing makes no difference to what a text that is run comes to, nor a program that is given as
a tree, a node in whatever state, or a tree that is lowered. -/
theorem tracing_unobservable :
    (∀ file text,
      (Session.runText file true text).untraced = (Session.runText file false text).untraced) ∧
    (∀ steps tree, (evaluate steps true tree).untraced = (evaluate steps false tree).untraced) ∧
    (∀ steps a (s : State) visits,
      (eval steps a { s with tracing := true, visits := visits }).untraced =
        (eval steps a { s with tracing := false, visits := visits }).untraced) ∧
    ∀ whole d, (Session.lower whole true d).untraced = (Session.lower whole false d).untraced :=
  ⟨fun file text => Session.runText_untraced file true text,
    fun steps tree => evaluate_untraced steps true tree,
    fun steps a _ _ => eval_untraced steps a rfl,
    fun whole d => Session.lower_untraced whole true d⟩

end Bronti
