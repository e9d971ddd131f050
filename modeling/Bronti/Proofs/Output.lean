import Bronti.Proofs.Decimal
import Bronti.Proofs.Endings
import Bronti.Proofs.Frames
import Bronti.Proofs.Separators
import Mathlib

/-!
The output of evaluations. An evaluation comes to other nodes in turn and then perhaps to the function
that is built in, and the calls of this function, in order, are what it adds to the output, however it
ends. The text of calls can be read back, as a space stands between integers and a line ends each call.
-/
namespace Bronti

open Run Eval

/-! ## Turns -/

section Turns

variable {α β : Type}

/-- What follows an answer; nothing follows a run that breaks off or does not finish. -/
def Outcome.after (o : Outcome α) (next : α → State → List β) : List β :=
  match o with
  | .done a t => next a t
  | _ => []

end Turns

/-- However the run from the state ends, it has printed these lists, in order. -/
def Prints {α : Type} (m : Run α) (s : State) (lines : List (List Int)) : Prop :=
  (m s).Ends (fun _ t => t.printed = lines.reverse ++ s.printed)
    (fun _ t => t.printed = lines.reverse ++ s.printed)

/-- The run prints nothing, from whatever state. -/
def PrintsNothing {α : Type} (m : Run α) : Prop := ∀ s, Prints m s []

section Steps

variable {α β : Type} {s : State} {lines : List (List Int)}

theorem Prints.bind {m : Run α} {f : α → Run β} {next : α → State → List (List Int)}
    (hm : Prints m s lines) (hf : ∀ a t, Prints (f a) t (next a t)) :
    Prints (m >>= f) s (lines ++ (m s).after next) := by
  change (Run.bind m f s).Ends _ _
  unfold Run.bind
  cases hr : m s with
  | done a t =>
    have hlines : t.printed = lines.reverse ++ s.printed := hm.of_done hr
    simp only [Outcome.after, List.reverse_append, List.append_assoc, ← hlines]
    exact hf a t
  | stopped e t =>
    have hlines : t.printed = lines.reverse ++ s.printed := hm.of_stopped hr
    simpa [Outcome.after] using hlines
  | unfinished => trivial

theorem PrintsNothing.bind {m : Run α} {f : α → Run β} {next : α → State → List (List Int)}
    (hm : PrintsNothing m) (hf : ∀ a t, Prints (f a) t (next a t)) :
    Prints (m >>= f) s ((m s).after next) := (hm s).bind hf

end Steps

section Nodes

variable {rec : Ast → Run Result} {prints : Ast → State → List (List Int)}

end Nodes

/-- The text that calls of the built-in function write. -/
def textOf (calls : List (List Int)) : String := String.join (calls.map printLine)

theorem State.output_behind {s t : State} {lines : List (List Int)}
    (h : t.printed = lines.reverse ++ s.printed) : t.output = s.output ++ textOf lines := by
  rw [output, h, List.reverse_append, List.reverse_reverse, List.map_append, String.join_append]
  rfl

theorem Prints.output {α : Type} {m : Run α} {s : State} {lines : List (List Int)}
    (h : Prints m s lines) :
    (m s).Ends (fun _ t => t.output = s.output ++ textOf lines)
      (fun _ t => t.output = s.output ++ textOf lines) :=
  h.mono (fun _ _ ht => State.output_behind ht) fun _ _ ht => State.output_behind ht

/-- A call without integers leaves an empty line. -/
example : textOf [[], [-7, 0]] = "\n-7 0\n" := by cbv

end Bronti
