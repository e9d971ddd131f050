import Bronti.Proofs.Subruns

/-!
Evaluations that finish. A loop may go on for as many rounds as it is given; a node of any other kind
finishes as soon as everything that its evaluation asks for does. So an evaluation without loops that
does not finish asks for one that does not finish either.
-/
namespace Bronti

open Run Eval

/-- From every state the run ends, with an answer or broken off. -/
def Finishes {α : Type} (m : Run α) : Prop := ∀ s, m s ≠ .unfinished

section Steps

variable {α β : Type}

/-- In one state, a run followed by runs that finish finishes if it does so itself there. -/
theorem bind_finished {m : Run α} {f : α → Run β} {s : State} (hm : m s ≠ .unfinished)
    (hf : ∀ a, Finishes (f a)) : (m >>= f) s ≠ .unfinished := by
  change Run.bind m f s ≠ .unfinished
  unfold Run.bind
  cases hr : m s with
  | done a t => exact hf a t
  | stopped e t => simp
  | unfinished => exact absurd hr hm

theorem Finishes.bind {m : Run α} {f : α → Run β} (hm : Finishes m) (hf : ∀ a, Finishes (f a)) :
    Finishes (m >>= f) := fun s => bind_finished (hm s) hf

theorem pure_finishes (a : α) : Finishes (pure a) := fun _ h => nomatch h

theorem error_finishes (cause : Cause) (span : Option Span) :
    Finishes (Run.error (α := α) cause span) := fun _ h => nomatch h

theorem fault_finishes (f : Fault) : Finishes (Run.fault (α := α) f) := fun _ h => nomatch h

theorem ofExcept_finishes (span : Option Span) (e : Except Cause α) :
    Finishes (ofExcept span e) := by
  cases e with
  | ok a => exact pure_finishes a
  | error cause => exact error_finishes cause span

theorem attempt_finishes (f : State → Option State) : Finishes (attempt f) := by
  intro s
  unfold attempt
  split <;> simp

theorem isDefined_finishes (x : String) : Finishes (isDefined x) := fun _ h => nomatch h

theorem value_finishes (x : String) : Finishes (value? x) := fun _ h => nomatch h

theorem function_finishes (x : String) : Finishes (function? x) := fun _ h => nomatch h

theorem inFrame_finishes {m : Run α} (hm : Finishes m) : Finishes (inFrame m) := by
  have hclosing : ∀ (t : State) (ending : State → Outcome α), (∀ u, ending u ≠ .unfinished) →
      closing t ending ≠ .unfinished := by
    intro t ending hending
    unfold closing
    split
    · exact hending _
    · simp
  intro s
  unfold inFrame
  cases hr : m s.opened with
  | done a t => exact hclosing t _ (by simp)
  | stopped e t => exact hclosing t _ (by simp)
  | unfinished => exact absurd hr (hm s.opened)

end Steps

section Nodes

variable {rec : Ast → Run Result}

theorem int_finishes (hr : ∀ a, Finishes (rec a)) (a : Ast) : Finishes (intWith rec a) :=
  (hr a).bind fun _ => ofExcept_finishes _ _

theorem bool_finishes (hr : ∀ a, Finishes (rec a)) (a : Ast) : Finishes (boolWith rec a) :=
  (hr a).bind fun _ => ofExcept_finishes _ _

theorem ints_finish (hr : ∀ a, Finishes (rec a)) (as : List Ast) : Finishes (intsWith rec as) := by
  induction as with
  | nil => exact pure_finishes []
  | cons a as ih => exact (int_finishes hr a).bind fun _ => ih.bind fun _ => pure_finishes _

/-- A return passes, and anything else is followed by a run that finishes. -/
theorem unlessReturned_finishes {m : Run Result} (hm : Finishes m) (r : Result) :
    Finishes (match r with | .returned n => pure (.returned n) | _ => m) := by
  cases r with
  | returned n => exact pure_finishes _
  | nothing | int _ | bool _ => exact hm

theorem statements_finish (hr : ∀ a, Finishes (rec a)) (as : List Ast) :
    Finishes (statementsWith rec as) := by
  induction as with
  | nil => exact pure_finishes Result.nothing
  | cons a as ih => exact (hr a).bind fun r => unlessReturned_finishes ih r

theorem first_finishes (hr : ∀ a, Finishes (rec a)) (as : List Ast) :
    Finishes (firstWith rec as) := by
  cases as with
  | nil => exact fault_finishes .noChild
  | cons a as => exact hr a

theorem functionStatement_finishes (x : String) (params : List String) (body : Ast)
    (span : Option Span) : Finishes (functionStatement x params body span) := by
  unfold functionStatement
  split
  · exact error_finishes _ _
  · apply (attempt_finishes _).bind
    intro made
    split
    · exact pure_finishes _
    · exact error_finishes _ _

theorem declaration_finishes (hr : ∀ a, Finishes (rec a)) (x : String) (initializer : Option Ast)
    (span : Option Span) : Finishes (declarationWith rec x initializer span) := by
  apply (attempt_finishes _).bind
  intro made
  split
  · exact error_finishes _ _
  · cases initializer with
    | none => exact pure_finishes _
    | some e =>
      exact (int_finishes hr e).bind fun n => (attempt_finishes _).bind fun _ => pure_finishes _

theorem assignment_finishes (hr : ∀ a, Finishes (rec a)) (x : String) (value : Ast)
    (span : Option Span) : Finishes (assignmentWith rec x value span) := by
  apply (isDefined_finishes x).bind
  intro defined
  split
  · exact error_finishes _ _
  · exact (int_finishes hr value).bind fun n => (attempt_finishes _).bind fun _ => pure_finishes _

theorem branch_finishes (hr : ∀ a, Finishes (rec a)) (condition : Ast)
    (positive negative : Option Ast) : Finishes (branchWith rec condition positive negative) := by
  apply (bool_finishes hr condition).bind
  intro b
  split
  · exact pure_finishes _
  · exact hr _

theorem operation_finishes (hr : ∀ a, Finishes (rec a)) (left : Ast) (op : String) (right : Ast)
    (span : Option Span) : Finishes (operationWith rec left op right span) := by
  unfold operationWith
  split
  · exact fault_finishes _
  · split
    · refine (int_finishes hr left).bind fun _ => (int_finishes hr right).bind fun _ => ?_
      exact (ofExcept_finishes span _).bind fun _ => pure_finishes _
    · refine (int_finishes hr left).bind fun _ => (int_finishes hr right).bind fun _ => ?_
      exact pure_finishes _
    · refine (bool_finishes hr left).bind fun _ => (bool_finishes hr right).bind fun _ => ?_
      exact pure_finishes _

theorem reference_finishes (x : String) (span : Option Span) :
    Finishes (referenceValue x span) := by
  apply (value_finishes x).bind
  intro v
  cases v with
  | some n => exact pure_finishes _
  | none => exact error_finishes _ _

theorem bindParams_finishes (xs : List String) (ns : List Int) : Finishes (bindParams xs ns) := by
  induction xs generalizing ns with
  | nil => exact pure_finishes ()
  | cons x xs ih =>
    cases ns with
    | nil => exact pure_finishes ()
    | cons n ns => exact (attempt_finishes _).bind fun _ => (attempt_finishes _).bind fun _ => ih ns

theorem apply_finishes (hr : ∀ a, Finishes (rec a)) (f : Function) (ns : List Int) :
    Finishes (applyWith rec f ns) := by
  have hbody : Finishes (do bindParams f.params ns; rec f.body) :=
    (bindParams_finishes f.params ns).bind fun _ => hr f.body
  exact (inFrame_finishes hbody).bind fun _ => pure_finishes _

theorem call_finishes (hr : ∀ a, Finishes (rec a)) (x : String) (args : List Ast)
    (span : Option Span) : Finishes (callWith rec x args span) := by
  refine (ints_finish hr args).bind fun ns => (function_finishes x).bind fun found => ?_
  cases found with
  | some f =>
    dsimp only
    split
    · exact apply_finishes hr f ns
    · exact error_finishes _ _
  | none =>
    apply (attempt_finishes _).bind
    intro printed
    split
    · exact pure_finishes _
    · exact error_finishes _ _

/-- A node that is no loop finishes if the nodes inside it and the bodies of functions do. -/
theorem node_finishes (hr : ∀ a, Finishes (rec a)) (limit : Nat) {a : Ast}
    (hloop : a.kind ≠ "WHILE") : Finishes (nodeWith rec limit a) := by
  cases a with
  | program children _ =>
    exact (first_finishes hr children).bind fun r => unlessReturned_finishes (pure_finishes _) r
  | block statements _ => exact statements_finish hr statements
  | braced children _ => exact inFrame_finishes (first_finishes hr children)
  | function x params body span => exact functionStatement_finishes x params body span
  | declaration x initializer span => exact declaration_finishes hr x initializer span
  | assignment x value span => exact assignment_finishes hr x value span
  | branch condition positive negative _ => exact branch_finishes hr condition positive negative
  | loop condition body _ => exact absurd rfl hloop
  | result value _ => exact (int_finishes hr value).bind fun _ => pure_finishes _
  | statement value _ =>
    exact (hr value).bind fun r => unlessReturned_finishes (pure_finishes _) r
  | operation left op right span => exact operation_finishes hr left op right span
  | parens inner _ => exact hr inner
  | literal text span => exact (ofExcept_finishes span _).bind fun _ => pure_finishes _
  | reference x span => exact reference_finishes x span
  | call x args span => exact call_finishes hr x args span
  | broken _ f _ | hole f => exact fault_finishes _

end Nodes

/-- The way to evaluate nodes that breaks off wherever another one does not finish. -/
def breakingOff (rec : Ast → Run Result) (a : Ast) : Run Result := fun s =>
  match rec a s with
  | .unfinished => .stopped (.fault .noChild) s
  | o => o

theorem breakingOff_finishes (rec : Ast → Run Result) (a : Ast) :
    Finishes (breakingOff rec a) := by
  intro s
  unfold breakingOff
  split
  · simp
  · next h => exact h

theorem breakingOff_eq {rec : Ast → Run Result} {a : Ast} {s : State}
    (h : rec a s ≠ .unfinished) : breakingOff rec a s = rec a s := by
  unfold breakingOff
  split
  · next hu => exact absurd hu h
  · rfl

/-- Where no loop stands, only what is asked for can keep an evaluation from finishing. -/
theorem asks_unfinished {steps : Nat} {a : Ast} {s : State} (hloop : a.kind ≠ "WHILE")
    (h : eval (steps + 1) a s = .unfinished) :
    ∃ b t, Asked (eval steps) steps (s.visit a) a b t ∧ eval steps b t = .unfinished := by
  by_contra hnone
  push Not at hnone
  -- had all that is asked for finished, the node would not tell the evaluation that breaks off there
  have hsame : nodeWith (breakingOff (eval steps)) steps a (s.visit a) =
      nodeWith (eval steps) steps a (s.visit a) :=
    node_congr fun b t hasked => breakingOff_eq (hnone b t hasked)
  have hfinishes := node_finishes (breakingOff_finishes (eval steps)) steps hloop (s.visit a)
  rw [hsame] at hfinishes
  exact hfinishes h

/-- A program that does not finish has a block that does not. -/
theorem evaluate_unfinished {steps : Nat} {tracing : Bool} {tree : Ast}
    (h : evaluate steps tracing tree = .unfinished) :
    ∃ a ∈ tree.children, eval steps a (.initial tracing) = .unfinished := by
  have hprogram : evalProgram steps tree (.initial tracing) = .unfinished := by
    unfold evaluate at h
    split at h
    · cases h
    · cases h
    · assumption
  by_contra hnone
  push Not at hnone
  have hfirst : firstWith (eval steps) tree.children (.initial tracing) ≠ .unfinished := by
    cases hchildren : tree.children with
    | nil => exact fault_finishes .noChild _
    | cons a rest => exact hnone a (by simp [hchildren])
  exact bind_finished hfirst (fun r => unlessReturned_finishes (pure_finishes _) r) hprogram

end Bronti
