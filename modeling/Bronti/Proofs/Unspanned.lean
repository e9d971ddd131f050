import Bronti.Proofs.Observation

/-!
Spans mean nothing to a run but where its error is said to be. Statements that are the same but for
their spans leave the same, from states that are the same but for the spans in the bodies of their
functions, and in any more steps.
-/
namespace Bronti

namespace Ast

/-- A tree without its spans. -/
def unspanned : Ast → Ast := rewrite withoutSpan

theorem unspanned_eq (a : Ast) : a.unspanned = (a.mapChildren unspanned).withoutSpan :=
  rewrite_eq _ a

end Ast

/-- A function without the spans in its body. -/
def Function.unspanned (f : Function) : Function := { f with body := f.body.unspanned }

/-- A frame without the spans in the bodies of its functions. -/
def Frame.unspanned (f : Frame) : Frame :=
  { f with funs := f.funs.map fun p => (p.1, p.2.unspanned) }

/-- The states have printed the same and have the same frames, but for the spans in the bodies of
functions. -/
structure State.Same (s t : State) : Prop where
  printed : s.printed = t.printed
  frames : s.frames.map Frame.unspanned = t.frames.map Frame.unspanned

namespace State.Same

variable {s t : State}

theorem refl (s : State) : s.Same s := ⟨rfl, rfl⟩

theorem symm (h : s.Same t) : t.Same s := ⟨h.printed.symm, h.frames.symm⟩

theorem trans {u : State} (h : s.Same t) (h' : t.Same u) : s.Same u :=
  ⟨h.printed.trans h'.printed, h.frames.trans h'.frames⟩

theorem visit (s : State) (a : Ast) : (s.visit a).Same s :=
  ⟨s.printed_visit a, by rw [s.frames_visit a]⟩

end State.Same

/-- What a run leaves when it has ended: its answer or the cause of its break, what was printed, and
the frames without the spans in the bodies of functions. -/
structure Remains (α : Type) where
  answer : Except (Except Fault Cause) α
  printed : List (List Int)
  frames : Chain

/-- What a run leaves, if it has ended. -/
def Outcome.remains {α : Type} : Outcome α → Option (Remains α)
  | .done a s => some ⟨.ok a, s.printed, s.frames.map Frame.unspanned⟩
  | .stopped e s => some ⟨.error e.cause, s.printed, s.frames.map Frame.unspanned⟩
  | .unfinished => none

theorem Outcome.of_remains_done {α : Type} {o : Outcome α} {a : α} {s : State}
    (h : o.remains = (Outcome.done a s).remains) : ∃ t, o = .done a t ∧ s.Same t := by
  cases o with
  | done b t =>
    simp only [remains, Option.some.injEq, Remains.mk.injEq, Except.ok.injEq] at h
    obtain ⟨rfl, hprinted, hframes⟩ := h
    exact ⟨t, rfl, hprinted.symm, hframes.symm⟩
  | stopped _ _ => simp [remains] at h
  | unfinished => simp [remains] at h

/-- Trees that are the same but for spans. -/
def Likeness.unspanned : Likeness :=
  sameNames True (fun _ _ => True) (fun a b => a.unspanned = b.unspanned) fun _ => trivial

namespace Likeness

theorem unspanned_matched {depth : Nat} {a b : Ast} (h : a.unspanned = b.unspanned) :
    unspanned.correspondence.Matched depth a b := by
  rw [Ast.unspanned_eq, Ast.unspanned_eq] at h
  exact matched_of_mapChildren (fun _ => rfl) (fun _ => rfl) (fun _ _ => trivial)
    (fun _ _ _ _ hxy => hxy) h

theorem unspanned_respects {n m : Nat} (h : n ≤ m) :
    unspanned.correspondence.Respects (eval n) (eval m) :=
  Correspondence.eval_respects (fun _ _ _ => unspanned_matched) h (.inl trivial)

theorem forall₂_iff_map_eq {α β : Type} {R : α → α → Prop} (f : α → β)
    (hR : ∀ a b, R a b ↔ f a = f b) {as bs : List α} :
    List.Forall₂ R as bs ↔ as.map f = bs.map f := by
  constructor
  · intro h
    induction h with
    | nil => rfl
    | cons hab _ ih => simp [(hR _ _).mp hab, ih]
  · intro h
    exact forall₂_of_map_eq h fun a _ b _ => (hR a b).mpr

theorem forall₂_iff_eq {α : Type} {R : α → α → Prop} (hR : ∀ a b, R a b ↔ a = b) {as bs : List α} :
    List.Forall₂ R as bs ↔ as = bs :=
  (forall₂_iff_map_eq id hR).trans (by simp)

theorem bound_iff {α β : Type} {R : α → α → Prop} (f : α → β) (hR : ∀ a b, R a b ↔ f a = f b)
    (p q : String × α) : Bound Eq R p q ↔ (p.1, f p.2) = (q.1, f q.2) := by
  constructor
  · intro h
    exact Prod.ext h.name ((hR _ _).mp h.content)
  · intro h
    obtain ⟨hname, hcontent⟩ := Prod.mk.inj h
    exact ⟨hname, (hR _ _).mpr hcontent⟩

theorem functions_unspanned (f g : Function) :
    unspanned.Functions f g ↔ f.unspanned = g.unspanned := by
  have hparams : List.Forall₂ unspanned.vars f.params g.params ↔ f.params = g.params :=
    forall₂_iff_eq fun _ _ => Iff.rfl
  constructor
  · intro h
    simp only [Function.unspanned, Function.mk.injEq]
    exact ⟨hparams.mp h.params, h.body⟩
  · intro h
    simp only [Function.unspanned, Function.mk.injEq] at h
    exact ⟨hparams.mpr h.1, h.2⟩

theorem frames_unspanned (f g : Frame) : unspanned.Frames f g ↔ f.unspanned = g.unspanned := by
  have hvars : List.Forall₂ (Bound unspanned.vars Eq) f.vars g.vars ↔ f.vars = g.vars :=
    forall₂_iff_eq (bound_iff id fun _ _ => Iff.rfl)
  have hfuns : List.Forall₂ (Bound unspanned.funs unspanned.Functions) f.funs g.funs ↔
      f.unspanned.funs = g.unspanned.funs :=
    forall₂_iff_map_eq _ (bound_iff Function.unspanned functions_unspanned)
  constructor
  · intro h
    simp only [Frame.unspanned, Frame.mk.injEq]
    exact ⟨hvars.mp h.vars, hfuns.mp h.funs⟩
  · intro h
    simp only [Frame.unspanned, Frame.mk.injEq] at h
    exact ⟨hvars.mpr h.1, hfuns.mpr h.2⟩

theorem states_unspanned {s t : State} {depth : Nat} :
    unspanned.States depth s t ↔ s.outer.length = depth ∧ s.Same t := by
  have hframes : List.Forall₂ unspanned.Frames s.frames t.frames ↔
      s.frames.map Frame.unspanned = t.frames.map Frame.unspanned :=
    forall₂_iff_map_eq Frame.unspanned frames_unspanned
  constructor
  · intro h
    exact ⟨h.depth, h.printed, hframes.mp h.frames⟩
  · rintro ⟨hdepth, h⟩
    obtain ⟨hinner, houter⟩ := List.forall₂_cons.mp (hframes.mpr h.frames)
    exact ⟨hinner, houter, hdepth, h.printed⟩

/-- What the first of two runs that are alike leaves, the second one leaves as well. -/
theorem remains_of_follows {α : Type} {m n : Run α}
    (h : ∀ depth, unspanned.correspondence.Follows depth Eq m n) {s t : State} (hst : s.Same t)
    {e : Remains α} (he : (m s).remains = some e) : (n t).remains = some e := by
  have htied := h s.outer.length s t (states_unspanned.mpr ⟨rfl, hst⟩)
  generalize m s = o at htied he
  generalize n t = p at htied
  cases htied with
  | done answer state =>
    obtain ⟨-, hprinted, hframes⟩ := states_unspanned.mp state
    rw [← he]
    simp only [Outcome.remains, answer, hprinted, hframes]
  | stopped stop state =>
    obtain ⟨-, hprinted, hframes⟩ := states_unspanned.mp state
    rw [← he]
    simp only [Outcome.remains, stop.cause_eq, hprinted, hframes]
  | unfinished | late _ _ => cases he

end Likeness

end Bronti
