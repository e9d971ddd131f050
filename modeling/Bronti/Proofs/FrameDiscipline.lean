import Bronti.Proofs.Endings
import Bronti.Proofs.Frames

/-!
The discipline of frames: a node leaves as many frames open as it finds, it declares in the
innermost one only, and where it gives a value it declares nothing. No variable loses its value.
-/
namespace Bronti

/-- The result is a value, and neither nothing nor a return. -/
def Result.IsValue : Result → Prop
  | .int _ | .bool _ => True
  | _ => False

/-- A run from the state `s` has broken off in the state `t`, but not for want of a frame. -/
structure Broken (s : State) (e : Stop) (t : State) : Prop where
  grown : s.Grown t
  cause : e ≠ .fault .lastFrame

/-- The run declares nothing in the frames that are open. -/
def Keeping {α : Type} (m : Run α) : Prop := ∀ s, (m s).Ends (fun _ t => s.Kept t) (Broken s)

/-- The run declares in the innermost frame only. -/
def Growing {α : Type} (m : Run α) : Prop := ∀ s, (m s).Ends (fun _ t => s.Grown t) (Broken s)

/-- The run declares in the innermost frame only and gives no value. -/
def Silent (m : Run Result) : Prop :=
  ∀ s, (m s).Ends (fun r t => s.Grown t ∧ ¬ r.IsValue) (Broken s)

/-- The run declares in the innermost frame only, and nothing where it gives a value. -/
def Disciplined (m : Run Result) : Prop :=
  ∀ s, (m s).Ends (fun r t => s.Grown t ∧ (r.IsValue → s.Kept t)) (Broken s)

open Run Eval

section Steps

variable {α β : Type} {s t : State}

/-- A part of a run that breaks off breaks the whole off. -/
theorem Outcome.Ends.since {o : Outcome α} {answers : α → State → Prop}
    (h : o.Ends answers (Broken t)) (hg : s.Grown t) : o.Ends answers (Broken s) :=
  h.mono (fun _ _ ha => ha) fun _ _ hb => ⟨hg.trans hb.grown, hb.cause⟩

theorem error_broken (hg : s.Grown t) {answers : α → State → Prop} (cause : Cause)
    (span : Option Span) : (Run.error cause span t).Ends answers (Broken s) :=
  ⟨hg, by simp⟩

theorem ofExcept_keeping (span : Option Span) (e : Except Cause α) : Keeping (ofExcept span e) := by
  intro s
  cases e with
  | ok a => exact .refl s
  | error cause => exact error_broken (.refl s) cause span

theorem Keeping.growing {m : Run α} (hm : Keeping m) : Growing m := fun s =>
  (hm s).mono (fun _ _ h => h.grown) fun _ _ h => h

theorem Keeping.bind {m : Run α} {f : α → Run β} (hm : Keeping m) (hf : ∀ a, Keeping (f a)) :
    Keeping (m >>= f) := by
  intro s
  apply bind_ends (hm s)
  intro a t ht
  refine ((hf a t).since ht.grown).mono (fun _ _ hu => ht.trans hu) fun _ _ h => h

theorem Growing.bind {m : Run α} {f : α → Run β} (hm : Growing m) (hf : ∀ a, Growing (f a)) :
    Growing (m >>= f) := by
  intro s
  apply bind_ends (hm s)
  intro a t ht
  exact ((hf a t).since ht).mono (fun _ _ hu => ht.trans hu) fun _ _ h => h

theorem Growing.silent {m : Run α} {f : α → Run Result} (hm : Growing m)
    (hf : ∀ a, Silent (f a)) : Silent (m >>= f) := by
  intro s
  apply bind_ends (hm s)
  intro a t ht
  exact ((hf a t).since ht).mono (fun _ _ hu => ⟨ht.trans hu.1, hu.2⟩) fun _ _ h => h

theorem Keeping.disciplined {m : Run α} {f : α → Run Result} (hm : Keeping m)
    (hf : ∀ a, Disciplined (f a)) : Disciplined (m >>= f) := by
  intro s
  apply bind_ends (hm s)
  intro a t ht
  refine ((hf a t).since ht.grown).mono (fun _ _ hu => ?_) fun _ _ h => h
  exact ⟨ht.grown.trans hu.1, fun hv => ht.trans (hu.2 hv)⟩

theorem Silent.disciplined {m : Run Result} (hm : Silent m) : Disciplined m := fun s =>
  (hm s).mono (fun _ _ h => ⟨h.1, fun hv => absurd hv h.2⟩) fun _ _ h => h

theorem Disciplined.of_keeping {m : Run Result} (hm : Keeping m) : Disciplined m := fun s =>
  (hm s).mono (fun _ _ h => ⟨h.grown, fun _ => h⟩) fun _ _ h => h

theorem Disciplined.growing {m : Run Result} (hm : Disciplined m) : Growing m := fun s =>
  (hm s).mono (fun _ _ h => h.1) fun _ _ h => h

theorem pure_keeping (a : α) : Keeping (pure a) := fun s => .refl s

theorem pure_silent {r : Result} (hr : ¬ r.IsValue) : Silent (pure r) := fun s => ⟨.refl s, hr⟩

theorem error_keeping (cause : Cause) (span : Option Span) :
    Keeping (Run.error (α := α) cause span) := fun s =>
  error_broken (.refl s) cause span

theorem error_silent (cause : Cause) (span : Option Span) : Silent (Run.error cause span) :=
  fun s => error_broken (.refl s) cause span

theorem fault_keeping {f : Fault} (hf : f ≠ .lastFrame) : Keeping (Run.fault (α := α) f) :=
  fun s => ⟨.refl s, by simpa using hf⟩

theorem isDefined_keeping (x : String) : Keeping (isDefined x) := fun s => .refl s

theorem value_keeping (x : String) : Keeping (value? x) := fun s => .refl s

theorem function_keeping (x : String) : Keeping (function? x) := fun s => .refl s

theorem visit_keeping (a : Ast) : Keeping (visit a) := fun s =>
  State.Kept.of_frames (State.frames_visit s a)

theorem set_keeping (x : String) (n : Int) : Keeping (set x n) := fun s =>
  attempt_ends (fun _ ht => State.kept_set ht) fun _ => .refl s

theorem declare_growing (x : String) : Growing (declare x) := fun s =>
  attempt_ends (fun _ ht => State.grown_declare ht) fun _ => .refl s

theorem declareFunction_growing (x : String) (g : Function) : Growing (declareFunction x g) :=
  fun s => attempt_ends (fun _ ht => State.grown_declareFunction ht) fun _ => .refl s

theorem callBuiltin_keeping (name : String) (args : List Int) : Keeping (callBuiltin name args) :=
  fun s => attempt_ends (fun _ ht => .of_frames (State.frames_callBuiltin ht)) fun _ => .refl s

/-- What is declared in a frame of its own is gone with it. -/
theorem inFrame_keeping {m : Run α} (hm : Growing m) : Keeping (inFrame m) := by
  intro s
  refine inFrame_ends (hm s.opened) (fun a t ht => ?_) fun e t he => ?_
  · obtain ⟨u, hu, hk⟩ := ht.close
    simpa [closing, hu] using hk
  · obtain ⟨u, hu, hk⟩ := he.grown.close
    simpa [closing, hu] using (⟨hk.grown, he.cause⟩ : Broken s e u)

end Steps

section Nodes

variable {rec : Ast → Run Result}

theorem int_keeping (hr : ∀ a, Disciplined (rec a)) (a : Ast) : Keeping (intWith rec a) := by
  intro s
  apply bind_ends (hr a s)
  intro r t ht
  cases r with
  | int n => exact ht.2 trivial
  | nothing | bool _ | returned _ => exact error_broken ht.1 _ _

theorem bool_keeping (hr : ∀ a, Disciplined (rec a)) (a : Ast) : Keeping (boolWith rec a) := by
  intro s
  apply bind_ends (hr a s)
  intro r t ht
  cases r with
  | bool b => exact ht.2 trivial
  | nothing | int _ | returned _ => exact error_broken ht.1 _ _

theorem ints_keeping (hr : ∀ a, Disciplined (rec a)) (as : List Ast) :
    Keeping (intsWith rec as) := by
  induction as with
  | nil => exact pure_keeping []
  | cons a as ih => exact (int_keeping hr a).bind fun n => ih.bind fun ns => pure_keeping _

theorem statements_silent (hr : ∀ a, Disciplined (rec a)) (as : List Ast) :
    Silent (statementsWith rec as) := by
  induction as with
  | nil => exact pure_silent id
  | cons a as ih =>
    apply (hr a).growing.silent
    intro r
    cases r with
    | returned n => exact pure_silent id
    | nothing | int _ | bool _ => exact ih

theorem first_disciplined (hr : ∀ a, Disciplined (rec a)) (children : List Ast) :
    Disciplined (firstWith rec children) := by
  cases children with
  | nil => exact .of_keeping (fault_keeping (by simp))
  | cons a _ => exact hr a

theorem program_silent (hr : ∀ a, Disciplined (rec a)) (children : List Ast) :
    Silent (programWith rec children) := by
  apply (first_disciplined hr children).growing.silent
  intro r
  cases r <;> exact pure_silent id

theorem function_silent (name : String) (params : List String) (body : Ast) (span : Option Span) :
    Silent (functionStatement name params body span) := by
  unfold functionStatement
  split
  · exact error_silent _ _
  · apply (declareFunction_growing name _).silent
    intro made
    split
    · exact pure_silent id
    · exact error_silent _ _

theorem declaration_silent (hr : ∀ a, Disciplined (rec a)) (name : String)
    (initializer : Option Ast) (span : Option Span) :
    Silent (declarationWith rec name initializer span) := by
  apply (declare_growing name).silent
  intro made
  split
  · exact error_silent _ _
  · cases initializer with
    | none => exact pure_silent id
    | some e =>
      apply (int_keeping hr e).growing.silent
      intro n
      exact (set_keeping name n).growing.silent fun _ => pure_silent id

theorem assignment_silent (hr : ∀ a, Disciplined (rec a)) (name : String) (value : Ast)
    (span : Option Span) : Silent (assignmentWith rec name value span) := by
  apply (isDefined_keeping name).growing.silent
  intro defined
  split
  · exact error_silent _ _
  · apply (int_keeping hr value).growing.silent
    intro n
    exact (set_keeping name n).growing.silent fun _ => pure_silent id

theorem branch_disciplined (hr : ∀ a, Disciplined (rec a)) (condition : Ast)
    (positive negative : Option Ast) :
    Disciplined (branchWith rec condition positive negative) := by
  apply (bool_keeping hr condition).disciplined
  intro b
  split
  · exact (pure_silent id).disciplined
  · exact hr _

theorem loop_silent (hr : ∀ a, Disciplined (rec a)) (condition body : Ast) (limit : Nat) :
    Silent (loopWith rec condition body limit) := by
  induction limit with
  | zero => exact fun s => trivial
  | succ limit ih =>
    apply (bool_keeping hr condition).growing.silent
    intro b
    split
    · apply (hr body).growing.silent
      intro r
      cases r with
      | returned n => exact pure_silent id
      | nothing | int _ | bool _ => exact ih
    · exact pure_silent id

theorem result_silent (hr : ∀ a, Disciplined (rec a)) (value : Ast) :
    Silent (resultWith rec value) :=
  (int_keeping hr value).growing.silent fun _ => pure_silent id

theorem statement_silent (hr : ∀ a, Disciplined (rec a)) (value : Ast) :
    Silent (statementWith rec value) := by
  apply (hr value).growing.silent
  intro r
  cases r <;> exact pure_silent id

theorem operation_keeping (hr : ∀ a, Disciplined (rec a)) (left : Ast) (op : String) (right : Ast)
    (span : Option Span) : Keeping (operationWith rec left op right span) := by
  unfold operationWith
  split
  · exact fault_keeping (by simp)
  · split
    · refine (int_keeping hr left).bind fun a => (int_keeping hr right).bind fun b => ?_
      exact (ofExcept_keeping span _).bind fun n => pure_keeping _
    · refine (int_keeping hr left).bind fun a => (int_keeping hr right).bind fun b => ?_
      exact pure_keeping _
    · refine (bool_keeping hr left).bind fun a => (bool_keeping hr right).bind fun b => ?_
      exact pure_keeping _

theorem reference_keeping (name : String) (span : Option Span) :
    Keeping (referenceValue name span) := by
  apply (value_keeping name).bind
  intro v
  cases v with
  | some n => exact pure_keeping _
  | none => exact error_keeping _ _

theorem bindParams_growing (xs : List String) (ns : List Int) : Growing (bindParams xs ns) := by
  induction xs generalizing ns with
  | nil => exact (pure_keeping ()).growing
  | cons x xs ih =>
    cases ns with
    | nil => exact (pure_keeping ()).growing
    | cons n ns =>
      exact (declare_growing x).bind fun _ => (set_keeping x n).growing.bind fun _ => ih ns

theorem apply_keeping (hr : ∀ a, Disciplined (rec a)) (f : Function) (args : List Int) :
    Keeping (applyWith rec f args) := by
  have hbody : Growing (do bindParams f.params args; rec f.body) :=
    (bindParams_growing f.params args).bind fun _ => (hr f.body).growing
  exact (inFrame_keeping hbody).bind fun r => pure_keeping _

theorem call_keeping (hr : ∀ a, Disciplined (rec a)) (name : String) (args : List Ast)
    (span : Option Span) : Keeping (callWith rec name args span) := by
  refine (ints_keeping hr args).bind fun ns => (function_keeping name).bind fun found => ?_
  cases found with
  | some f =>
    dsimp only
    split
    · exact apply_keeping hr f ns
    · exact error_keeping _ _
  | none =>
    apply (callBuiltin_keeping name ns).bind
    intro printed
    split
    · exact pure_keeping _
    · exact error_keeping _ _

theorem flaw_fault_ne (f : Flaw) : f.fault ≠ .lastFrame := by
  cases f <;> simp [Flaw.fault]

/-- One node is disciplined if the nodes inside it are. -/
theorem node_disciplined (hr : ∀ a, Disciplined (rec a)) (limit : Nat) (a : Ast) :
    Disciplined (nodeWith rec limit a) := by
  cases a with
  | program children _ => exact (program_silent hr children).disciplined
  | block statements _ => exact (statements_silent hr statements).disciplined
  | braced children _ => exact .of_keeping (inFrame_keeping (first_disciplined hr children).growing)
  | function name params body span => exact (function_silent name params body span).disciplined
  | declaration name initializer span =>
    exact (declaration_silent hr name initializer span).disciplined
  | assignment name value span => exact (assignment_silent hr name value span).disciplined
  | branch condition positive negative _ => exact branch_disciplined hr condition positive negative
  | loop condition body _ => exact (loop_silent hr condition body limit).disciplined
  | result value _ => exact (result_silent hr value).disciplined
  | statement value _ => exact (statement_silent hr value).disciplined
  | operation left op right span => exact .of_keeping (operation_keeping hr left op right span)
  | parens inner _ => exact hr inner
  | literal text span =>
    exact .of_keeping ((ofExcept_keeping span _).bind fun n => pure_keeping _)
  | reference name span => exact .of_keeping (reference_keeping name span)
  | call name args span => exact .of_keeping (call_keeping hr name args span)
  | broken _ f _ | hole f => exact .of_keeping (fault_keeping (flaw_fault_ne f))

end Nodes

theorem eval_disciplined (steps : Nat) (a : Ast) : Disciplined (eval steps a) := by
  induction steps generalizing a with
  | zero => exact fun s => trivial
  | succ steps ih => exact (visit_keeping a).disciplined fun _ => node_disciplined ih steps a

/-- However the evaluation of a node ends, as many frames are open as before, the frames under the
innermost one have the variables and functions that they had, the innermost one has perhaps more of
them at the end, but no more where the result is a value, and no variable has lost its value. So no
program closes the last frame. -/
theorem frame_discipline :
    (∀ steps a s, (eval steps a s).Ends
      (fun r t => t.depth = s.depth ∧ s.Grown t ∧ (r.IsValue → s.Kept t))
      (fun e t => t.depth = s.depth ∧ s.Grown t ∧ e ≠ .fault .lastFrame)) ∧
    ∀ steps tracing tree t, evaluate steps tracing tree ≠ .stopped (.fault .lastFrame) t := by
  refine ⟨?_, ?_⟩
  · intro steps a s
    refine (eval_disciplined steps a s).mono ?_ ?_
    · intro r t ht
      exact ⟨ht.1.depth, ht⟩
    · intro e t he
      exact ⟨he.grown.depth, he.grown, he.cause⟩
  · intro steps tracing tree t h
    have hrun := program_silent (eval_disciplined steps) tree.children (.initial tracing)
    unfold evaluate evalProgram at h
    split at h
    · cases h
    · next e u hu =>
      cases h
      rw [hu] at hrun
      exact hrun.cause rfl
    · cases h

end Bronti
