import Bronti.Eval

/-!
How runs end, with an answer or broken off. What holds at the end of a run follows from what holds
at the ends of its parts.
-/
namespace Bronti

variable {α β : Type}

/-- An answer ends in a state as `answers` has it, and a break as `breaks` has it. -/
def Outcome.Ends (answers : α → State → Prop) (breaks : Stop → State → Prop) : Outcome α → Prop
  | .done a s => answers a s
  | .stopped e s => breaks e s
  | .unfinished => True

@[simp] theorem Outcome.ends_done {answers : α → State → Prop} {breaks : Stop → State → Prop}
    (a : α) (s : State) : (Outcome.done a s).Ends answers breaks ↔ answers a s := Iff.rfl

@[simp] theorem Outcome.ends_stopped {answers : α → State → Prop} {breaks : Stop → State → Prop}
    (e : Stop) (s : State) : (Outcome.stopped e s).Ends answers breaks ↔ breaks e s := Iff.rfl

theorem Outcome.Ends.of_done {o : Outcome α} {answers : α → State → Prop}
    {breaks : Stop → State → Prop} {a : α} {s : State} (h : o.Ends answers breaks)
    (ho : o = .done a s) : answers a s := by
  rwa [ho] at h

theorem Outcome.Ends.of_stopped {o : Outcome α} {answers : α → State → Prop}
    {breaks : Stop → State → Prop} {e : Stop} {s : State} (h : o.Ends answers breaks)
    (ho : o = .stopped e s) : breaks e s := by
  rwa [ho] at h

theorem Outcome.Ends.mono {o : Outcome α} {answers answers' : α → State → Prop}
    {breaks breaks' : Stop → State → Prop} (h : o.Ends answers breaks)
    (ha : ∀ a s, answers a s → answers' a s) (hb : ∀ e s, breaks e s → breaks' e s) :
    o.Ends answers' breaks' := by
  cases o with
  | done a s => exact ha a s h
  | stopped e s => exact hb e s h
  | unfinished => trivial

theorem Outcome.Ends.and {o : Outcome α} {answers answers' : α → State → Prop}
    {breaks breaks' : Stop → State → Prop} (h : o.Ends answers breaks)
    (h' : o.Ends answers' breaks') :
    o.Ends (fun a s => answers a s ∧ answers' a s) (fun e s => breaks e s ∧ breaks' e s) := by
  cases o with
  | done a s => exact ⟨h, h'⟩
  | stopped e s => exact ⟨h, h'⟩
  | unfinished => trivial

theorem Outcome.ends_any (o : Outcome α) : o.Ends (fun _ _ => True) (fun _ _ => True) := by
  cases o <;> trivial

theorem Outcome.ends_self (o : Outcome α) :
    o.Ends (fun a s => o = .done a s) (fun e s => o = .stopped e s) := by
  cases o <;> trivial

namespace Run

variable {s : State} {answers : α → State → Prop} {breaks : Stop → State → Prop}

theorem bind_ends {m : Run α} {f : α → Run β} {answers' : β → State → Prop}
    (hm : (m s).Ends answers breaks) (hf : ∀ a t, answers a t → (f a t).Ends answers' breaks) :
    ((m >>= f) s).Ends answers' breaks := by
  change (Run.bind m f s).Ends answers' breaks
  unfold Run.bind
  cases hr : m s with
  | done a t => exact hf a t (hm.of_done hr)
  | stopped e t => exact hm.of_stopped hr
  | unfinished => trivial

/-- Whatever comes first, the run that follows it says how it is answered. -/
theorem bind_ends_last {m : Run α} {f : α → Run β} {answers : β → State → Prop}
    (hf : ∀ a t, (f a t).Ends answers (fun _ _ => True)) :
    ((m >>= f) s).Ends answers (fun _ _ => True) :=
  bind_ends (m s).ends_any fun a t _ => hf a t

theorem attempt_ends {f : State → Option State} {answers : Bool → State → Prop}
    (hsome : ∀ t, f s = some t → answers true t) (hnone : f s = none → answers false s) :
    (attempt f s).Ends answers breaks := by
  unfold attempt
  split
  · next t ht => exact hsome t ht
  · next ht => exact hnone ht

theorem closing_ends {t : State} {ending : State → Outcome α}
    (hclose : ∀ u, t.close? = some u → (ending u).Ends answers breaks)
    (hlast : t.close? = none → breaks (.fault .lastFrame) t) :
    (closing t ending).Ends answers breaks := by
  unfold closing
  split
  · next u hu => exact hclose u hu
  · next hn => exact hlast hn

/-- A run in a frame of its own ends as the run inside does, once the frame is closed. -/
theorem inFrame_ends {m : Run α} {answers' : α → State → Prop} {breaks' : Stop → State → Prop}
    (hm : (m s.opened).Ends answers' breaks')
    (ha : ∀ a t, answers' a t → (closing t (.done a)).Ends answers breaks)
    (hb : ∀ e t, breaks' e t → (closing t (.stopped (α := α) e)).Ends answers breaks) :
    (inFrame m s).Ends answers breaks := by
  unfold inFrame
  cases hr : m s.opened with
  | done a t => exact ha a t (hm.of_done hr)
  | stopped e t => exact hb e t (hm.of_stopped hr)
  | unfinished => trivial

end Run

/-- The exit code is what the run of the program returns. -/
theorem evaluate_ends {steps : Nat} {tracing : Bool} {tree : Ast} {answers : Result → State → Prop}
    {answers' : Int → State → Prop} {breaks : Stop → State → Prop}
    (h : (evalProgram steps tree (.initial tracing)).Ends answers breaks)
    (ha : ∀ r s, answers r s → answers' (Eval.returnedOrZero r) s) :
    (evaluate steps tracing tree).Ends answers' breaks := by
  unfold evaluate
  cases hr : evalProgram steps tree (.initial tracing) with
  | done r s => exact ha r s (h.of_done hr)
  | stopped e s => exact h.of_stopped hr
  | unfinished => trivial

end Bronti
