import Bronti.Proofs.Rewriting

/-!
What can be seen of a run from outside: its answer or its break, and what it printed. Runs that are
tied show the same, and more steps never change what a program comes to.
-/
namespace Bronti

variable {α β : Type}

/-- The answer, or a view of the break, with what was printed; nothing of a run that is
unfinished. -/
def Outcome.seen (view : Stop → β) : Outcome α → Option (Except β α × String)
  | .done a s => some (.ok a, s.output)
  | .stopped e s => some (.error (view e), s.output)
  | .unfinished => none

namespace Stop

/-- The kind of an error and its line, or the fault. -/
def kindAndLine : Stop → Except Fault (ErrorKind × Option Nat)
  | .error e => .ok (e.cause.kind, e.line?)
  | .fault f => .error f

/-- The cause of an error, which decides its kind and its message, or the fault. -/
def cause : Stop → Except Fault Cause
  | .error e => .ok e.cause
  | .fault f => .error f

end Stop

theorem State.output_of_printed {s t : State} (h : s.printed = t.printed) :
    s.output = t.output := by
  simp only [State.output, h]

namespace Outcome.Tied

variable {late : Prop} {bad : Stop → Stop → Prop} {o p : Outcome α} {view : Stop → β}

/-- What the first run shows, the second one shows too. -/
theorem seen_of_seen (h : o.Tied late Eq bad (fun s t => s.printed = t.printed) p)
    (hbad : ∀ e f, bad e f → view e = view f) {e : Except β α × String}
    (he : o.seen view = some e) : p.seen view = some e := by
  cases h with
  | done answer state =>
    rw [← he]
    simp only [seen, answer, State.output_of_printed state]
  | stopped stop state =>
    rw [← he]
    simp only [seen, hbad _ _ stop, State.output_of_printed state]
  | unfinished | late _ _ => cases he

theorem seen_eq (h : o.Tied False Eq bad (fun s t => s.printed = t.printed) p)
    (hbad : ∀ e f, bad e f → view e = view f) : o.seen view = p.seen view := by
  cases hs : o.seen view with
  | some e => exact (h.seen_of_seen hbad hs).symm
  | none =>
    cases h with
    | done _ _ | stopped _ _ => cases hs
    | unfinished => rfl
    | late h _ => exact h.elim

end Outcome.Tied

theorem Cause.Renamed.kind {vars funs : String → String → Prop} {c d : Cause}
    (h : c.Renamed vars funs d) : c.kind = d.kind := by
  cases h <;> rfl

theorem Cause.Renamed.eq {vars : String → String → Prop} (hv : ∀ x y, vars x y → x = y)
    {c d : Cause} (h : c.Renamed vars Eq d) : c = d := by
  cases h with
  | same => rfl
  | redefinedVariable h | undeclared h | unset h => rw [hv _ _ h]
  | redefinedFunction h | unknownFunction h | arity h _ _ => rw [h]

theorem Stop.Tied.kindAndLine_eq {vars funs : String → String → Prop} {e f : Stop}
    (h : e.Tied vars funs Eq f) : e.kindAndLine = f.kindAndLine := by
  cases h with
  | error cause span => simp only [kindAndLine, EvalError.line?, cause.kind, span]
  | fault _ => rfl

theorem Stop.Tied.cause_eq {spans : Option Span → Option Span → Prop} {e f : Stop}
    (h : e.Tied Eq Eq spans f) : e.cause = f.cause := by
  cases h with
  | error cause _ => simp only [Stop.cause, cause.eq fun _ _ h => h]
  | fault _ => rfl

theorem Stop.Tied.eq {vars : String → String → Prop} (hv : ∀ x y, vars x y → x = y) {e f : Stop}
    (h : e.Tied vars Eq Eq f) : e = f := by
  cases h with
  | error cause span => rw [cause.eq hv, span]
  | fault _ => rfl

namespace Likeness

/-- Trees that are the same. -/
def same (late : Prop) : Likeness := sameNames late Eq Eq fun h => congrArg Ast.span h

theorem same_matched (late : Prop) {depth : Nat} {a b : Ast} (h : a = b) :
    (same late).correspondence.Matched depth a b := by
  subst h
  have hself : (same late).correspondence.Matched depth a (a.mapChildren id) :=
    matched_mapChildren (fun _ => rfl) (fun _ => rfl) (fun _ => rfl) fun _ _ => rfl
  rwa [Ast.mapChildren_id] at hself

/-- Runs of the same tree are alike, in as many steps or, where the second one may be late, in
more. -/
theorem same_respects {late : Prop} {n m : Nat} (h : n ≤ m) (hlate : late ∨ n = m) :
    (same late).correspondence.Respects (eval n) (eval m) :=
  Correspondence.eval_respects (fun _ _ _ => same_matched late) h hlate

end Likeness

/-- With enough steps, the tree run as a program shows `e`. -/
def ComesTo (tracing : Bool) (view : Stop → β) (tree : Ast) (e : Except β Int × String) : Prop :=
  ∃ steps, (evaluate steps tracing tree).seen view = some e

/-- A program that has come to an end comes to it in any more steps. -/
theorem evaluate_seen_of_le {tracing : Bool} {view : Stop → β} {tree : Ast}
    {e : Except β Int × String} {n m : Nat} (h : n ≤ m)
    (he : (evaluate n tracing tree).seen view = some e) :
    (evaluate m tracing tree).seen view = some e := by
  have htied := Likeness.evaluate_tied (Likeness.same_respects h (.inl trivial)) tracing tree tree
    (List.forall₂_same.mpr fun _ _ => rfl)
  exact htied.seen_of_seen (fun _ _ h => congrArg view (h.eq fun _ _ h => h)) he

theorem ComesTo.unique {tracing : Bool} {view : Stop → β} {tree : Ast} {e f : Except β Int × String}
    (he : ComesTo tracing view tree e) (hf : ComesTo tracing view tree f) : e = f := by
  obtain ⟨n, hn⟩ := he
  obtain ⟨m, hm⟩ := hf
  have h := evaluate_seen_of_le (Nat.le_max_left n m) hn
  rw [evaluate_seen_of_le (Nat.le_max_right n m) hm] at h
  exact (Option.some.inj h).symm

end Bronti
