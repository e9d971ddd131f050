import Bronti.Proofs.Bindings
import Bronti.Proofs.Rewriting
import Mathlib.Data.Set.Basic

/-!
What an evaluation leaves alone. A binding of a variable that there is keeps its value unless there
is an assignment to its name, in the tree or in the body of a function that is declared; what is
declared, initialized or passed as an argument has a binding of its own.
-/
namespace Bronti

/-- The names that the assignments in a tree store values under. -/
def Ast.targets (a : Ast) : Set String := {x | ∃ value span, .assignment x value span ∈ a.nodes}

/-- The names that are assigned in the bodies of the functions of a state. -/
def State.targets (s : State) : Set String :=
  {x | ∃ f ∈ s.frames, ∃ p ∈ f.funs, x ∈ p.2.body.targets}

theorem Ast.targets_child {a b : Ast} (h : b ∈ a.children) : b.targets ⊆ a.targets := by
  rintro x ⟨value, span, hx⟩
  exact ⟨value, span, mem_nodes_of_child h hx⟩

theorem Ast.mem_targets (x : String) (value : Ast) (span : Option Span) :
    x ∈ (Ast.assignment x value span).targets := ⟨value, span, mem_nodes_self _⟩

/-- The bindings of a chain stand in the other as they are, but for those of some names. -/
def Chain.Spares (A : Set String) (fs gs : Chain) : Prop :=
  ∀ p b, fs.binding? p = some b → b.1 ∉ A → gs.binding? p = some b

namespace Chain.Spares

variable {A : Set String} {f g : Frame} {fs gs hs : Chain}

theorem refl (fs : Chain) : Spares A fs fs := fun _ _ h _ => h

theorem trans (h : Spares A fs gs) (h' : Spares A gs hs) : Spares A fs hs := fun p b hb hA =>
  h' p b (h p b hb hA) hA

theorem outside (h : Spares A (f :: fs) (g :: gs)) : Spares A fs gs := fun p b hb hA =>
  h p.outward b hb hA

theorem addVariable (f : Frame) (x : String) (fs : Chain) :
    Spares A (f :: fs) (f.addVariable x :: fs) := by
  rintro ⟨k, i⟩ b hb _
  cases k with
  | zero =>
    obtain ⟨hlt, -⟩ := List.getElem?_eq_some_iff.mp hb
    exact (List.getElem?_append_left hlt).trans hb
  | succ k => exact hb

/-- A store in a slot in which nothing stood leaves alone what there was. -/
theorem stores {x : String} {n : Int} {p : Slot} (h : Spares A fs gs)
    (hstores : Stores x n p gs hs) (hp : fs.binding? p = none) : Spares A fs hs := by
  intro q b hb hA
  have hq : q ≠ p := by
    rintro rfl
    rw [hp] at hb
    cases hb
  rw [hstores.others q hq]
  exact h q b hb hA

end Chain.Spares

theorem Chain.Stores.spares {A : Set String} {x : String} {n : Int} {p : Slot} {fs gs : Chain}
    (h : Chain.Stores x n p fs gs) (hx : x ∈ A) : Chain.Spares A fs gs := by
  intro q b hb hA
  have hq : q ≠ p := by
    rintro rfl
    rw [Chain.binding?_of_slot? h.before] at hb
    cases hb
    exact hA hx
  rw [h.others q hq]
  exact hb

namespace State

variable {A : Set String} {s t : State} {x : String}

/-- The functions of a state assign to some names only. -/
def Confined (A : Set String) (s : State) : Prop := s.EveryFunction fun f => f.body.targets ⊆ A

theorem confined_of_functions (hs : s.Confined A)
    (h : t.frames.map Frame.funs = s.frames.map Frame.funs) : t.Confined A := by
  intro f hf p hp
  have hfuns : f.funs ∈ s.frames.map Frame.funs := h ▸ List.mem_map_of_mem hf
  obtain ⟨g, hg, hgf⟩ := List.mem_map.mp hfuns
  exact hs g hg p (hgf ▸ hp)

theorem spares_declare (h : s.declare? x = some t) : Chain.Spares A s.frames t.frames := by
  unfold declare? at h
  split at h
  · cases h
  · cases h
    exact .addVariable s.inner x s.outer

theorem spares_declareFunction {f : Function} (h : s.declareFunction? x f = some t) :
    Chain.Spares A s.frames t.frames := by
  unfold declareFunction? at h
  split at h
  · cases h
  · cases h
    rintro ⟨k, i⟩ b hb _
    cases k <;> exact hb

theorem frames_close (h : s.close? = some t) : t.frames = s.outer := by
  unfold close? at h
  split at h
  · cases h
  · next hs =>
    cases h
    exact hs.symm

end State

open Run Eval

/-- The run changes bindings of some names only, if the functions that there are assign to these
only; and then this holds of the functions that there are at its end. -/
def Sparing {α : Type} (A : Set String) (m : Run α) : Prop :=
  ∀ s : State, s.Confined A → (m s).Ends
    (fun _ t => Chain.Spares A s.frames t.frames ∧ t.Confined A)
    (fun _ t => Chain.Spares A s.frames t.frames)

section Steps

variable {α β : Type} {A : Set String}

theorem Sparing.bind {m : Run α} {f : α → Run β} (hm : Sparing A m) (hf : ∀ a, Sparing A (f a)) :
    Sparing A (m >>= f) := by
  intro s hs
  apply bind_ends (hm s hs)
  intro a t ht
  exact (hf a t ht.2).mono (fun _ _ hu => ⟨ht.1.trans hu.1, hu.2⟩) fun _ _ hu => ht.1.trans hu

/-- A run that leaves the frames as they are, whether it answers or breaks off. -/
theorem Sparing.of_frames {m : Run α}
    (h : ∀ s, (m s).Ends (fun _ t => t.frames = s.frames) (fun _ t => t.frames = s.frames)) :
    Sparing A m := by
  intro s hs
  refine (h s).mono (fun a t ht => ?_) fun e t ht => ?_
  · exact ⟨ht ▸ .refl _, hs.of_kept (.of_frames ht)⟩
  · exact ht ▸ .refl _

theorem pure_sparing (a : α) : Sparing A (pure a) := .of_frames fun _ => rfl

theorem error_sparing (cause : Cause) (span : Option Span) :
    Sparing A (Run.error (α := α) cause span) := .of_frames fun _ => rfl

theorem fault_sparing (f : Fault) : Sparing A (Run.fault (α := α) f) := .of_frames fun _ => rfl

theorem ofExcept_sparing (span : Option Span) (e : Except Cause α) :
    Sparing A (ofExcept span e) := by
  cases e with
  | ok a => exact pure_sparing a
  | error cause => exact error_sparing cause span

theorem visit_sparing (a : Ast) : Sparing A (visit a) := .of_frames fun s => s.frames_visit a

theorem value_sparing (x : String) : Sparing A (value? x) := .of_frames fun _ => rfl

theorem callBuiltin_sparing (x : String) (ns : List Int) : Sparing A (callBuiltin x ns) :=
  .of_frames fun _ => attempt_ends (fun _ ht => State.frames_callBuiltin ht) fun _ => rfl

theorem declareFunction_sparing (x : String) {f : Function} (hf : f.body.targets ⊆ A) :
    Sparing A (declareFunction x f) := fun _ hs =>
  attempt_ends (fun _ ht => ⟨State.spares_declareFunction ht, hs.declareFunction hf ht⟩)
    fun _ => ⟨.refl _, hs⟩

theorem declare_sparing (x : String) : Sparing A (declare x) := fun _ hs =>
  attempt_ends (fun _ ht => ⟨State.spares_declare ht, hs.declare ht⟩) fun _ => ⟨.refl _, hs⟩

/-- A run that spares what there was outside its own frame, once this frame is closed. -/
theorem inFrame_sparing {m : Run α} (hgrowing : Growing m)
    (hm : ∀ s : State, s.Confined A → (m s.opened).Ends
      (fun _ t => Chain.Spares A s.frames t.outer ∧ t.Confined A)
      (fun _ t => Chain.Spares A s.frames t.outer)) : Sparing A (inFrame m) := by
  intro s hs
  refine inFrame_ends ((hm s hs).and (hgrowing s.opened)) (fun a t ht => ?_) fun e t he => ?_
  · obtain ⟨⟨hspares, hconfined⟩, hgrown⟩ := ht
    obtain ⟨u, hu, _⟩ := hgrown.close
    simp only [closing, hu, Outcome.ends_done, State.frames_close hu]
    exact ⟨hspares, hconfined.close hu⟩
  · obtain ⟨hspares, hbroken⟩ := he
    obtain ⟨u, hu, _⟩ := hbroken.grown.close
    simp only [closing, hu, Outcome.ends_stopped, State.frames_close hu]
    exact hspares

/-- To bind parameters changes the variables of the innermost frame only. -/
theorem bindParams_inside (xs : List String) (ns : List Int) (s : State) :
    (bindParams xs ns s).Ends
      (fun _ t => t.outer = s.outer ∧ t.inner.funs = s.inner.funs) (fun _ _ => False) := by
  induction xs generalizing ns s with
  | nil => exact ⟨rfl, rfl⟩
  | cons x xs ih =>
    cases ns with
    | nil => exact ⟨rfl, rfl⟩
    | cons n ns =>
      -- the variable is in the innermost frame then, whether it was declared just now or before
      have hdeclare : (declare x s).Ends (fun _ t => t.inner.hasVariable x = true ∧
          t.outer = s.outer ∧ t.inner.funs = s.inner.funs) (fun _ _ => False) := by
        refine attempt_ends (fun t ht => ?_) fun hnone => ?_
        · unfold State.declare? at ht
          split at ht <;> cases ht
          exact ⟨s.inner.hasVariable_addVariable x, rfl, rfl⟩
        · exact ⟨by simpa [State.declare?] using hnone, rfl, rfl⟩
      refine bind_ends hdeclare fun _ t ht => ?_
      obtain ⟨hx, houter, hfuns⟩ := ht
      have hset : set x n t = .done true { t with inner := t.inner.setVariable x n } :=
        attempt_done (if_pos hx)
      rw [bind_of_done hset]
      exact (ih ns _).mono (fun _ _ hu => ⟨hu.1.trans houter, hu.2.trans hfuns⟩) fun _ _ hu => hu

end Steps

section Nodes

variable {A : Set String} {rec : Ast → Run Result} {a : Ast} {as : List Ast}

theorem int_sparing (hr : Sparing A (rec a)) : Sparing A (intWith rec a) :=
  hr.bind fun _ => ofExcept_sparing _ _

theorem bool_sparing (hr : Sparing A (rec a)) : Sparing A (boolWith rec a) :=
  hr.bind fun _ => ofExcept_sparing _ _

theorem ints_sparing (hr : ∀ a ∈ as, Sparing A (rec a)) : Sparing A (intsWith rec as) := by
  induction as with
  | nil => exact pure_sparing []
  | cons a as ih =>
    obtain ⟨ha, has⟩ := List.forall_mem_cons.mp hr
    exact (int_sparing ha).bind fun _ => (ih has).bind fun _ => pure_sparing _

theorem statements_sparing (hr : ∀ a ∈ as, Sparing A (rec a)) :
    Sparing A (statementsWith rec as) := by
  induction as with
  | nil => exact pure_sparing _
  | cons a as ih =>
    obtain ⟨ha, has⟩ := List.forall_mem_cons.mp hr
    apply ha.bind
    intro r
    cases r with
    | returned n => exact pure_sparing _
    | nothing | int _ | bool _ => exact ih has

theorem first_sparing (hr : ∀ a ∈ as, Sparing A (rec a)) : Sparing A (firstWith rec as) := by
  cases as with
  | nil => exact fault_sparing _
  | cons a as => exact hr a (by simp)

theorem program_sparing (hr : ∀ a ∈ as, Sparing A (rec a)) : Sparing A (programWith rec as) := by
  apply (first_sparing hr).bind
  intro r
  cases r <;> exact pure_sparing _

theorem function_sparing {x : String} {params : List String} {body : Ast} {span : Option Span}
    (hbody : body.targets ⊆ A) : Sparing A (functionStatement x params body span) := by
  unfold functionStatement
  split
  · exact error_sparing _ _
  · apply (declareFunction_sparing x hbody).bind
    intro made
    split
    · exact pure_sparing _
    · exact error_sparing _ _

theorem branch_sparing {positive negative : Option Ast} (hr : Sparing A (rec a))
    (hp : ∀ b ∈ positive, Sparing A (rec b)) (hn : ∀ b ∈ negative, Sparing A (rec b)) :
    Sparing A (branchWith rec a positive negative) := by
  apply (bool_sparing hr).bind
  intro taken
  have hbody : ∀ b ∈ (if taken then positive else negative), Sparing A (rec b) := by
    cases taken
    · exact hn
    · exact hp
  split
  · exact pure_sparing _
  · next b hb => exact hbody b hb

theorem loop_sparing {body : Ast} (hr : Sparing A (rec a)) (hb : Sparing A (rec body))
    (limit : Nat) : Sparing A (loopWith rec a body limit) := by
  induction limit with
  | zero => exact fun _ _ => trivial
  | succ limit ih =>
    apply (bool_sparing hr).bind
    intro again
    split
    · apply hb.bind
      intro r
      cases r with
      | returned n => exact pure_sparing _
      | nothing | int _ | bool _ => exact ih
    · exact pure_sparing _

theorem statement_sparing (hr : Sparing A (rec a)) : Sparing A (statementWith rec a) := by
  apply hr.bind
  intro r
  cases r <;> exact pure_sparing _

theorem operation_sparing {left right : Ast} {op : String} {span : Option Span}
    (hl : Sparing A (rec left)) (hr : Sparing A (rec right)) :
    Sparing A (operationWith rec left op right span) := by
  unfold operationWith
  split
  · exact fault_sparing _
  · split
    · refine (int_sparing hl).bind fun a => (int_sparing hr).bind fun b => ?_
      exact (ofExcept_sparing span _).bind fun n => pure_sparing _
    · exact (int_sparing hl).bind fun a => (int_sparing hr).bind fun b => pure_sparing _
    · exact (bool_sparing hl).bind fun a => (bool_sparing hr).bind fun b => pure_sparing _

theorem reference_sparing (x : String) (span : Option Span) :
    Sparing A (referenceValue x span) := by
  apply (value_sparing x).bind
  intro v
  cases v with
  | some n => exact pure_sparing _
  | none => exact error_sparing _ _

theorem Eval.Puts.spares {e : Ast} {x : String} {n : Int} {p : Slot} {s u : State}
    (h : Puts rec e x n p s u) (hr : Sparing A (rec e)) (hs : s.Confined A) :
    ∃ t : State, Chain.Spares A s.frames t.frames ∧ Chain.Stores x n p t.frames u.frames ∧
      u.Confined A := by
  obtain ⟨t, ht, -, hstores⟩ := h
  obtain ⟨hspares, hconfined⟩ := (int_sparing hr s hs).of_done ht
  exact ⟨t, hspares, hstores, State.confined_of_functions hconfined hstores.functions⟩

theorem assignment_sparing (hd : ∀ a, Disciplined (rec a)) {x : String} {e : Ast}
    {span : Option Span} (hx : x ∈ A) (hr : Sparing A (rec e)) :
    Sparing A (assignmentWith rec x e span) := by
  intro s hs
  refine (assignment_puts hd x e span s).mono ?_ ?_
  · rintro r u ⟨-, p, n, -, hputs⟩
    obtain ⟨t, hspares, hstores, hconfined⟩ := hputs.spares hr hs
    exact ⟨hspares.trans (hstores.spares hx), hconfined⟩
  · rintro stop u (rfl | hstopped)
    · exact .refl _
    · exact (int_sparing hr s hs).of_stopped hstopped

/-- The value of an initializer goes to the variable that was declared just before. -/
theorem declaration_sparing (hd : ∀ a, Disciplined (rec a)) {x : String} {e : Option Ast}
    {span : Option Span} (hr : ∀ b ∈ e, Sparing A (rec b)) :
    Sparing A (declarationWith rec x e span) := by
  cases e with
  | none =>
    apply (declare_sparing x).bind
    intro made
    split
    · exact error_sparing _ _
    · exact pure_sparing _
  | some e =>
    have he : Sparing A (rec e) := hr e rfl
    intro s hs
    refine (declaration_puts hd x e span s).mono ?_ ?_
    · rintro r u ⟨-, t, n, ht, hputs⟩
      obtain ⟨hdeclared, hconfined⟩ := (declare_sparing x s hs).of_done ht
      obtain ⟨v, hspares, hstores, hconfined⟩ := hputs.spares he hconfined
      exact ⟨(hdeclared.trans hspares).stores hstores s.binding?_newSlot, hconfined⟩
    · rintro stop u (rfl | ⟨t, ht, hstopped⟩)
      · exact .refl _
      · obtain ⟨hdeclared, hconfined⟩ := (declare_sparing x s hs).of_done ht
        exact hdeclared.trans ((int_sparing he t hconfined).of_stopped hstopped)

theorem braced_sparing (hd : ∀ a, Disciplined (rec a)) (hr : ∀ a ∈ as, Sparing A (rec a)) :
    Sparing A (inFrame (firstWith rec as)) := by
  refine inFrame_sparing (first_disciplined hd as).growing fun s hs => ?_
  exact (first_sparing hr s.opened hs.opened).mono (fun _ _ h => ⟨h.1.outside, h.2⟩)
    fun _ _ h => h.outside

theorem apply_sparing (hd : ∀ a, Disciplined (rec a)) {f : Function} (ns : List Int)
    (hr : Sparing A (rec f.body)) : Sparing A (applyWith rec f ns) := by
  have hgrowing : Growing (do bindParams f.params ns; rec f.body) :=
    (bindParams_growing f.params ns).bind fun _ => (hd f.body).growing
  refine (inFrame_sparing hgrowing fun s hs => ?_).bind fun r => pure_sparing _
  -- whatever the names of the parameters, the frames of the caller are under them as they were
  have hparams := bindParams_inside f.params ns s.opened
  refine bind_ends (hparams.mono (fun _ _ h => h) fun _ _ h => h.elim) fun _ t ht => ?_
  obtain ⟨houter, hfuns⟩ := ht
  have hconfined : t.Confined A := by
    refine State.confined_of_functions hs.opened ?_
    rw [State.frames, List.map_cons, hfuns, houter]
    rfl
  have houter : t.outer = s.frames := houter
  refine (hr t hconfined).mono (fun _ _ h => ?_) fun _ _ h => ?_
  · exact ⟨houter ▸ h.1.outside, h.2⟩
  · exact houter ▸ h.outside

theorem call_sparing (hd : ∀ a, Disciplined (rec a)) {x : String} {span : Option Span}
    (hargs : ∀ a ∈ as, Sparing A (rec a)) (hbody : ∀ a, a.targets ⊆ A → Sparing A (rec a)) :
    Sparing A (callWith rec x as span) := by
  refine (ints_sparing hargs).bind fun ns => ?_
  intro s hs
  have hfound : function? x s = .done (Chain.function? s.frames x) s := rfl
  rw [bind_of_done hfound]
  cases hf : Chain.function? s.frames x with
  | some f =>
    dsimp only
    split
    · exact apply_sparing hd ns (hbody f.body (hs.function hf)) s hs
    · exact error_sparing _ _ s hs
  | none =>
    refine ((callBuiltin_sparing x ns).bind fun printed => ?_) s hs
    split
    · exact pure_sparing _
    · exact error_sparing _ _

/-- One node spares the bindings of the names that are not assigned in it if the nodes inside it and
the bodies of functions do. -/
theorem node_sparing (hd : ∀ a, Disciplined (rec a))
    (hr : ∀ a, a.targets ⊆ A → Sparing A (rec a)) (limit : Nat) (ha : a.targets ⊆ A) :
    Sparing A (nodeWith rec limit a) := by
  have hchild : ∀ b ∈ a.children, Sparing A (rec b) := fun b hb =>
    hr b ((Ast.targets_child hb).trans ha)
  cases a with
  | program children span => exact program_sparing hchild
  | block statements span => exact statements_sparing hchild
  | braced children span => exact braced_sparing hd hchild
  | function x params body span =>
    exact function_sparing ((Ast.targets_child (by simp [Ast.children])).trans ha)
  | declaration x e span =>
    simp only [Ast.children, Option.mem_toList] at hchild
    exact declaration_sparing hd hchild
  | assignment x e span =>
    exact assignment_sparing hd (ha (Ast.mem_targets x e span)) (hchild e (by simp [Ast.children]))
  | branch condition positive negative span =>
    simp only [Ast.children, List.mem_cons, List.mem_append, Option.mem_toList] at hchild
    exact branch_sparing (hchild _ (.inl rfl)) (fun b hb => hchild b (.inr (.inl hb)))
      fun b hb => hchild b (.inr (.inr hb))
  | loop condition body span =>
    exact loop_sparing (hchild condition (by simp [Ast.children]))
      (hchild body (by simp [Ast.children])) limit
  | result e span =>
    exact (int_sparing (hchild e (by simp [Ast.children]))).bind fun _ => pure_sparing _
  | statement e span => exact statement_sparing (hchild e (by simp [Ast.children]))
  | operation left op right span =>
    exact operation_sparing (hchild left (by simp [Ast.children]))
      (hchild right (by simp [Ast.children]))
  | parens e span => exact hchild e (by simp [Ast.children])
  | literal text span => exact (ofExcept_sparing span _).bind fun _ => pure_sparing _
  | reference x span => exact reference_sparing x span
  | call x args span => exact call_sparing hd hchild hr
  | broken kind f span | hole f => exact fault_sparing _

/-- From the state `s` a variable is declared, which changes no binding, and then its initializer is
evaluated with this outcome. -/
def Eval.Initializes (rec : Ast → Run Result) (x : String) (e : Ast) (s : State) (o : Outcome Int) :
    Prop :=
  ∃ t : State, declare x s = .done true t ∧ Chain.Spares ∅ s.frames t.frames ∧ intWith rec e t = o

theorem declare_spares (A : Set String) (x : String) (s : State) :
    (declare x s).Ends (fun _ t => Chain.Spares A s.frames t.frames)
      (fun _ t => Chain.Spares A s.frames t.frames) :=
  attempt_ends (fun _ ht => State.spares_declare ht) fun _ => .refl _

theorem uninitialized_spares (rec : Ast → Run Result) (x : String) (span : Option Span)
    (s : State) :
    (declarationWith rec x none span s).Ends (fun _ u => Chain.Spares A s.frames u.frames)
      (fun _ u => Chain.Spares A s.frames u.frames) := by
  refine bind_ends (declare_spares A x s) fun made t ht => ?_
  split
  · exact ht
  · exact ht

theorem declaration_initializes (hd : ∀ a, Disciplined (rec a)) (x : String) (e : Ast)
    (span : Option Span) (s : State) :
    (declarationWith rec x (some e) span s).Ends
      (fun _ u => ∃ n t, Initializes rec x e s (.done n t) ∧
        ∀ p, (s.frames.binding? p).isSome → u.frames.binding? p = t.frames.binding? p)
      (fun stop u => u = s ∨ Initializes rec x e s (.stopped stop u)) := by
  refine (declaration_puts hd x e span s).mono ?_ ?_
  · rintro r u ⟨-, t, n, ht, v, hv, -, hstores⟩
    refine ⟨n, v, ⟨t, ht, (declare_spares ∅ x s).of_done ht, hv⟩, fun p hp => hstores.others p ?_⟩
    rintro rfl
    rw [State.binding?_newSlot] at hp
    cases hp
  · rintro stop u (rfl | ⟨t, ht, hstopped⟩)
    · exact .inl rfl
    · exact .inr ⟨t, ht, (declare_spares ∅ x s).of_done ht, hstopped⟩

end Nodes

theorem eval_sparing {A : Set String} (steps : Nat) {a : Ast} (ha : a.targets ⊆ A) :
    Sparing A (eval steps a) := by
  induction steps generalizing a with
  | zero => exact fun _ _ => trivial
  | succ steps ih =>
    have hnode := node_sparing (eval_disciplined steps) (fun _ => ih) steps ha
    exact (visit_sparing a).bind fun _ => hnode

/-- Only assignments change bindings. However the evaluation of a node ends, as many frames are open
as before, and a binding that there was has the value that it had, unless its name is assigned in
the node or in the body of a function that there was. A declaration changes no binding that there
was, and neither does the store of its initializer, whatever the name; and to bind the parameters of
a call changes nothing in the frames that were open. -/
theorem only_assignments_change :
    (∀ steps a s, (eval steps a s).Ends
      (fun _ t => t.depth = s.depth ∧ Chain.Spares (a.targets ∪ s.targets) s.frames t.frames)
      (fun _ t => t.depth = s.depth ∧ Chain.Spares (a.targets ∪ s.targets) s.frames t.frames)) ∧
    (∀ steps x span s, (eval (steps + 1) (.declaration x none span) s).Ends
      (fun _ u => Chain.Spares ∅ s.frames u.frames) (fun _ u => Chain.Spares ∅ s.frames u.frames)) ∧
    (∀ steps x e span s, (eval (steps + 1) (.declaration x (some e) span) s).Ends
      (fun _ u => ∃ n t, Initializes (eval steps) x e (s.visit (.declaration x (some e) span))
          (.done n t) ∧
        ∀ p, (s.frames.binding? p).isSome → u.frames.binding? p = t.frames.binding? p)
      (fun stop u => u.frames = s.frames ∨
        Initializes (eval steps) x e (s.visit (.declaration x (some e) span)) (.stopped stop u))) ∧
    ∀ xs ns (s : State), (bindParams xs ns s.opened).Ends (fun _ t => t.outer = s.frames)
      (fun _ _ => False) := by
  refine ⟨?_, ?_, ?_, ?_⟩
  · intro steps a s
    have hconfined : s.Confined (a.targets ∪ s.targets) := fun f hf p hp x hx =>
      .inr ⟨f, hf, p, hp, hx⟩
    have hspares := eval_sparing steps Set.subset_union_left s hconfined
    refine (hspares.and (eval_disciplined steps a s)).mono (fun _ _ h => ?_) fun _ _ h => ?_
    · exact ⟨h.2.1.depth, h.1.1⟩
    · exact ⟨h.2.grown.depth, h.1⟩
  · intro steps x span s
    have hends := uninitialized_spares (A := ∅) (eval steps) x span
      (s.visit (.declaration x none span))
    rw [State.frames_visit] at hends
    exact hends
  · intro steps x e span s
    have hends := declaration_initializes (eval_disciplined steps) x e span
      (s.visit (.declaration x (some e) span))
    simp only [State.frames_visit] at hends
    refine hends.mono (fun _ _ h => h) ?_
    rintro stop u (rfl | h)
    · exact .inl (s.frames_visit _)
    · exact .inr h
  · exact fun xs ns s =>
      (bindParams_inside xs ns s.opened).mono (fun _ _ h => h.1) fun _ _ h => h

end Bronti
