import Bronti.Proofs.FrameDiscipline
import Bronti.Proofs.Invariants
import Bronti.Proofs.Roles

/-!
What lowering accepts can be evaluated. No node of an accepted tree has a fault of its own, and so
neither has any body of a function that is declared on the way.
-/
namespace Bronti

namespace Ast

/-- No node of the tree has a fault of its own. -/
def Faultless (a : Ast) : Prop := ∀ b ∈ a.nodes, b.ownFault? = none

theorem faultless_iff {a : Ast} :
    a.Faultless ↔ a.ownFault? = none ∧ ∀ b ∈ a.children, b.Faultless := forall_nodes_iff

/-- A node that fits where it stands has what its evaluation asks for. -/
theorem Fits.ownFault {held : Role → Prop} {a : Ast} (h : a.Fits held) : a.ownFault? = none := by
  cases a with
  | program children span | braced children span =>
    obtain ⟨b, rfl, -⟩ := h
    rfl
  | operation left op right span => exact if_pos h.2.2
  | broken | hole => exact h.elim
  | _ => rfl

end Ast

theorem Lowers.faultless {d : Datum} {a : Ast} (h : Lowers d a) : a.Faultless := fun b hb =>
  (h.nodes_fit b hb).ownFault

/-- The bodies of all functions are faultless. -/
def State.Faultless (s : State) : Prop := s.EveryFunction fun f => f.body.Faultless

/-- Faultless trees in states with faultless functions. The only fault that is left is that the last
frame is closed. -/
def Invariant.faultless : Invariant where
  state := State.Faultless
  tree := Ast.Faultless
  value _ := True
  fault f := f = .lastFrame
  child ha hb := (Ast.faultless_iff.mp ha).2 _ hb
  own_fault ha hf := by
    rw [(Ast.faultless_iff.mp ha).1] at hf
    cases hf
  last_frame := rfl
  zero := trivial
  literal _ := trivial
  arithmetic _ _ _ := trivial
  visited a hs := hs.of_kept (.of_frames (State.frames_visit _ a))
  stored _ _ := trivial
  body hs hf := hs.function hf
  declared hs ht := hs.declare ht
  assigned hs _ ht := hs.of_kept (State.kept_set ht)
  defined hs ha ht :=
    hs.declareFunction ((Ast.faultless_iff.mp ha).2 _ (by simp [Ast.children])) ht
  printed hs _ ht := hs.of_kept (.of_frames (State.frames_callBuiltin ht))
  opened hs := hs.opened
  closed hs ht := hs.close ht

/-- A kind of error is found under its name. -/
theorem ErrorKind.ofName?_name (k : ErrorKind) : ofName? k.name = some k := by
  cases k <;> decide +kernel

/-- A break for an error whose kind is one of those that are declared. -/
def Stop.IsDeclared (e : Stop) : Prop :=
  ∃ err, e = .error err ∧ ErrorKind.ofName? err.cause.kind.name = some err.cause.kind

theorem Invariant.Breaks.isDeclared {e : Stop} (h : faultless.Breaks e)
    (hlast : e ≠ .fault .lastFrame) : e.IsDeclared := by
  cases e with
  | error err => exact ⟨err, rfl, ErrorKind.ofName?_name _⟩
  | fault f =>
    obtain rfl : f = .lastFrame := h
    exact absurd rfl hlast

/-- A faultless tree comes to no fault, however long it runs; the functions in the state stay
faultless. -/
theorem eval_faultless (steps : Nat) {a : Ast} (ha : a.Faultless) {s : State} (hs : s.Faultless) :
    (eval steps a s).Ends (fun _ t => t.Faultless) (fun e t => t.Faultless ∧ e.IsDeclared) := by
  -- the invariant leaves one fault, which the discipline of frames excludes
  have hkept := Invariant.faultless.eval_keeps steps a ha s hs
  have hframes := eval_disciplined steps a s
  exact (hkept.and hframes).mono (fun _ _ h => h.1.1) fun _ _ h =>
    ⟨h.1.1, h.1.2.isDeclared h.2.cause⟩

theorem evaluate_faultless (steps : Nat) (tracing : Bool) {tree : Ast} (h : tree.Faultless)
    (hne : tree.children ≠ []) :
    (evaluate steps tracing tree).Ends (fun _ _ => True) (fun e _ => e.IsDeclared) := by
  have hfresh : (State.initial tracing).Faultless := .initial tracing
  have hkept := Invariant.faultless.evaluate_keeps (Ast.faultless_iff.mp h).2
    (fun hnil => absurd hnil hne) hfresh steps
  have hsilent := program_silent (eval_disciplined steps) tree.children (.initial tracing)
  have hframes : (evaluate steps tracing tree).Ends (fun _ _ => True) (Broken (.initial tracing)) :=
    evaluate_ends hsilent fun _ _ _ => trivial
  exact (hkept.and hframes).mono (fun _ _ _ => trivial) fun _ _ h => h.1.2.isDeclared h.2.cause

/-- What the analysis accepts can be run. An evaluation of the tree, as a program or as a node, ends
with an answer or with an error of a declared kind, and never with a fault; nor is an answer of
division ever one for a zero divisor. -/
theorem accepted_trees_run {d : Datum} {tracing : Bool} {a : Ast}
    (h : ((lowerProgram d).run tracing).1 = .ok a) :
    (∀ steps tracing', (evaluate steps tracing' a).Ends (fun _ _ => True)
      (fun e _ => e.IsDeclared)) ∧
    (∀ steps tracing', (eval steps a (.initial tracing')).Ends (fun _ _ => True)
      (fun e _ => e.IsDeclared)) ∧
    ∀ (o : Operator) (x y n : Int), o = .div ∨ o = .rem → o.Computes x y (.ok n) → y ≠ 0 := by
  have hgives : Lowering.Gives (lowerProgram d) a := ⟨⟨tracing, []⟩, _, Prod.ext h rfl⟩
  obtain ⟨hlowers, hkind⟩ := lowerProgram_sound hgives
  have hne : a.children ≠ [] := by
    cases hlowers with
    | program inner kind => simp [Ast.children]
    | _ => simp [Datum.kind?] at hkind
  refine ⟨fun steps tracing' => evaluate_faultless steps tracing' hlowers.faultless hne,
    fun steps tracing' => ?_, fun o x y n ho hn => hn.divisor_ne_zero ho⟩
  have hfresh : (State.initial tracing').Faultless := .initial tracing'
  exact (eval_faultless steps hlowers.faultless hfresh).mono (fun _ _ _ => trivial) fun _ _ h => h.2

/-- A program inside a program, and in it a literal without digits. -/
theorem nested_program_runs :
    ∃ a e s, ((lowerProgram (.node "PROGRAM" .null [.node "BLOCK" .null [.node "PROGRAM" .null
        [.node "BLOCK" .null [.node "RETURN" .null [.node "LITERAL" (.text "ten") [] none] none]
        none] none] none] none)).run false).1 = .ok a ∧
      evaluate 20 false a = .stopped e s ∧ e.IsDeclared := by
  have hstop : ∃ a e s, ((lowerProgram (.node "PROGRAM" .null [.node "BLOCK" .null
        [.node "PROGRAM" .null [.node "BLOCK" .null
          [.node "RETURN" .null [.node "LITERAL" (.text "ten") [] none] none]
        none] none] none] none)).run false).1 = .ok a ∧
      evaluate 20 false a = .stopped e s := ⟨_, _, _, rfl, rfl⟩
  obtain ⟨a, e, s, haccepted, hstopped⟩ := hstop
  have hdeclared := ((accepted_trees_run haccepted).1 20 false).of_stopped hstopped
  exact ⟨a, e, s, haccepted, hstopped, hdeclared⟩

end Bronti
