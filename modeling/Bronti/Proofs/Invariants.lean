import Bronti.Proofs.Endings
import Bronti.Proofs.MachineArithmetic

/-!
Invariants of evaluation. An invariant says which states, trees, integers, faults and errors there may
be, and that the operations on states respect it. Every run of the evaluator respects it then, however
it ends.
-/
namespace Bronti

/-- The fault that the evaluation of a node comes to before that of any node inside it. -/
def Ast.ownFault? : Ast → Option Fault
  | program [] _ | braced [] _ => some .noChild
  | operation _ op _ _ =>
    if (Operator.ofSymbol? op).isSome then none else some (.unknownOperator op)
  | broken _ f _ | hole f => some f.fault
  | _ => none

/-- The errors that the evaluation of a node comes to at the node itself, with its span. That it gives
no integer or no boolean where one is asked for may happen to any node. -/
inductive Ast.Raises : Ast → Cause → Prop
  | mismatch {a : Ast} {expected : ValueKind} {r : Result} : Raises a (.mismatch expected r)
  | repeatedParameter {x : String} {params : List String} {body : Ast} {span : Option Span} :
      Raises (.function x params body span) .repeatedParameter
  | redefinedFunction {x : String} {params : List String} {body : Ast} {span : Option Span} :
      Raises (.function x params body span) (.redefinedFunction x)
  | redefinedVariable {x : String} {initializer : Option Ast} {span : Option Span} :
      Raises (.declaration x initializer span) (.redefinedVariable x)
  | undeclared {x : String} {value : Ast} {span : Option Span} :
      Raises (.assignment x value span) (.undeclared x)
  | arithmetic {left right : Ast} {op : String} {span : Option Span} {o : Operator} {a b : Int}
      {cause : Cause} (h : o.Computes a b (.error cause)) :
      Raises (.operation left op right span) cause
  | badLiteral {text : String} {span : Option Span} {cause : Cause}
      (h : literalValue text = .error cause) : Raises (.literal text span) cause
  | unset {x : String} {span : Option Span} : Raises (.reference x span) (.unset x)
  | unknownFunction {x : String} {args : List Ast} {span : Option Span} :
      Raises (.call x args span) (.unknownFunction x)
  | arity {x : String} {args : List Ast} {span : Option Span} {expected actual : Int} :
      Raises (.call x args span) (.arity x expected actual)

theorem Result.toInt_error {r : Result} {cause : Cause} (h : r.toInt = .error cause) :
    cause = .mismatch .integer r := by
  cases r <;> cases h <;> rfl

theorem Result.toBool_error {r : Result} {cause : Cause} (h : r.toBool = .error cause) :
    cause = .mismatch .boolean r := by
  cases r <;> cases h <;> rfl

/-- Whatever integer the result holds has the property. -/
def Result.Holds (P : Int → Prop) : Result → Prop
  | .int n | .returned n => P n
  | .nothing | .bool _ => True

/-- Which states, trees, integers, faults and errors there may be while an evaluation goes on. That the
last frame is closed is not excluded here, nor is any error unless it is said which ones are. -/
structure Invariant where
  state : State → Prop
  tree : Ast → Prop
  value : Int → Prop
  fault : Fault → Prop
  error : EvalError → Prop := fun _ => True
  child {a b : Ast} : tree a → b ∈ a.children → tree b
  own_fault {a : Ast} {f : Fault} : tree a → a.ownFault? = some f → fault f
  own_error {a : Ast} {cause : Cause} : tree a → a.Raises cause → error ⟨cause, a.span⟩ := by
    intros
    trivial
  last_frame : fault .lastFrame
  zero : value 0
  literal {text : String} {n : Int} : literalValue text = .ok n → value n
  arithmetic {o : Operator} {a b n : Int} :
    o.Computes a b (.ok n) → value a → value b → value n
  visited {s : State} (a : Ast) : state s → state (s.visit a)
  stored {s : State} {x : String} {n : Int} :
    state s → Chain.value? s.frames x = some n → value n
  body {s : State} {x : String} {f : Function} :
    state s → Chain.function? s.frames x = some f → tree f.body
  declared {s t : State} {x : String} : state s → s.declare? x = some t → state t
  assigned {s t : State} {x : String} {n : Int} : state s → value n → s.set? x n = some t → state t
  defined {s t : State} {x : String} {params : List String} {body : Ast} {span : Option Span} :
    state s → tree (.function x params body span) →
      s.declareFunction? x ⟨params, body⟩ = some t → state t
  printed {s t : State} {x : String} {ns : List Int} :
    state s → (∀ n ∈ ns, value n) → s.callBuiltin? x ns = some t → state t
  opened {s : State} : state s → state s.opened
  closed {s t : State} : state s → s.close? = some t → state t

namespace Invariant

open Run Eval

variable {α β : Type}

/-- The break is an error or a fault that there may be. -/
def Breaks (I : Invariant) : Stop → Prop
  | .error e => I.error e
  | .fault f => I.fault f

/-- From a state that there may be, the run ends in such a state, with a good answer or a break that
there may be. -/
def Keeps (I : Invariant) (m : Run α) (good : α → Prop) : Prop :=
  ∀ s, I.state s →
    (m s).Ends (fun a t => I.state t ∧ good a) (fun e t => I.state t ∧ I.Breaks e)

variable {I : Invariant}

section Steps

variable {good : α → Prop} {good' : β → Prop}

theorem Keeps.bind {m : Run α} {f : α → Run β} (hm : I.Keeps m good)
    (hf : ∀ a, good a → I.Keeps (f a) good') : I.Keeps (m >>= f) good' := by
  intro s hs
  exact bind_ends (hm s hs) fun a t ht => hf a ht.2 t ht.1

theorem pure_keeps {a : α} (h : good a) : I.Keeps (pure a) good := fun _ hs => ⟨hs, h⟩

theorem error_keeps {cause : Cause} {span : Option Span} (h : I.error ⟨cause, span⟩) :
    I.Keeps (Run.error cause span) good := fun _ hs => ⟨hs, h⟩

theorem fault_keeps {f : Fault} (h : I.fault f) : I.Keeps (Run.fault f) good := fun _ hs => ⟨hs, h⟩

theorem ofExcept_keeps {span : Option Span} {e : Except Cause α} (h : ∀ a, e = .ok a → good a)
    (he : ∀ cause, e = .error cause → I.error ⟨cause, span⟩) : I.Keeps (ofExcept span e) good := by
  cases e with
  | ok a => exact pure_keeps (h a rfl)
  | error cause => exact error_keeps (he cause rfl)

theorem attempt_keeps {f : State → Option State}
    (h : ∀ s t, I.state s → f s = some t → I.state t) :
    I.Keeps (attempt f) (fun _ => True) := fun s hs =>
  attempt_ends (fun t ht => ⟨h s t hs ht, trivial⟩) fun _ => ⟨hs, trivial⟩

theorem visit_keeps (a : Ast) : I.Keeps (visit a) (fun _ => True) := fun _ hs =>
  ⟨I.visited a hs, trivial⟩

theorem value_keeps (x : String) : I.Keeps (value? x) (fun v => ∀ n, v = some n → I.value n) :=
  fun _ hs => ⟨hs, fun _ hn => I.stored hs hn⟩

theorem isDefined_keeps (x : String) : I.Keeps (isDefined x) (fun _ => True) := fun _ hs =>
  ⟨hs, trivial⟩

theorem function_keeps (x : String) :
    I.Keeps (function? x) (fun found => ∀ f, found = some f → I.tree f.body) := fun _ hs =>
  ⟨hs, fun _ hf => I.body hs hf⟩

theorem declare_keeps (x : String) : I.Keeps (declare x) (fun _ => True) :=
  attempt_keeps fun _ _ hs ht => I.declared hs ht

theorem set_keeps (x : String) {n : Int} (hn : I.value n) : I.Keeps (set x n) (fun _ => True) :=
  attempt_keeps fun _ _ hs ht => I.assigned hs hn ht

theorem declareFunction_keeps {x : String} {params : List String} {body : Ast}
    {span : Option Span} (ha : I.tree (.function x params body span)) :
    I.Keeps (declareFunction x ⟨params, body⟩) (fun _ => True) :=
  attempt_keeps fun _ _ hs ht => I.defined hs ha ht

theorem callBuiltin_keeps (x : String) {ns : List Int} (hns : ∀ n ∈ ns, I.value n) :
    I.Keeps (callBuiltin x ns) (fun _ => True) :=
  attempt_keeps fun _ _ hs ht => I.printed hs hns ht

theorem inFrame_keeps {m : Run α} (hm : I.Keeps m good) : I.Keeps (inFrame m) good := by
  intro s hs
  have hlast : I.Breaks (.fault .lastFrame) := I.last_frame
  -- the frame is closed after an answer and after a break alike
  refine inFrame_ends (hm s.opened (I.opened hs)) (fun a t ht => ?_) fun e t he => ?_
  · exact closing_ends (fun u hu => ⟨I.closed ht.1 hu, ht.2⟩) fun _ => ⟨ht.1, hlast⟩
  · exact closing_ends (fun u hu => ⟨I.closed he.1 hu, he.2⟩) fun _ => ⟨he.1, hlast⟩

end Steps

/-- The runs of the nodes inside: from trees that there may be come integers that there may be. -/
def Respected (I : Invariant) (rec : Ast → Run Result) : Prop :=
  ∀ a, I.tree a → I.Keeps (rec a) (Result.Holds I.value)

theorem returnedOrZero_holds (I : Invariant) {r : Result} (h : r.Holds I.value) :
    I.value (returnedOrZero r) := by
  cases r with
  | returned n => exact h
  | nothing | int _ | bool _ => exact I.zero

section Nodes

variable {rec : Ast → Run Result} {a : Ast} {as : List Ast}

theorem int_keeps (hr : I.Respected rec) (ha : I.tree a) : I.Keeps (intWith rec a) I.value := by
  apply (hr a ha).bind
  intro r hgood
  refine ofExcept_keeps (fun n hn => ?_) fun cause hc => ?_
  · cases r with
    | int k =>
      cases hn
      exact hgood
    | nothing | bool _ | returned _ => cases hn
  · rw [Result.toInt_error hc]
    exact I.own_error ha .mismatch

theorem bool_keeps (hr : I.Respected rec) (ha : I.tree a) :
    I.Keeps (boolWith rec a) (fun _ => True) := by
  apply (hr a ha).bind
  intro r _
  refine ofExcept_keeps (fun _ _ => trivial) fun cause hc => ?_
  rw [Result.toBool_error hc]
  exact I.own_error ha .mismatch

theorem ints_keep (hr : I.Respected rec) (ha : ∀ a ∈ as, I.tree a) :
    I.Keeps (intsWith rec as) (fun ns => ∀ n ∈ ns, I.value n) := by
  induction as with
  | nil => exact pure_keeps (by simp)
  | cons a as ih =>
    obtain ⟨ha, has⟩ := List.forall_mem_cons.mp ha
    apply (int_keeps hr ha).bind
    intro n hn
    apply (ih has).bind
    intro ns hns
    exact pure_keeps (List.forall_mem_cons.mpr ⟨hn, hns⟩)

/-- A return passes, and anything else is followed by a run that keeps the invariant. -/
theorem unlessReturned_keeps {m : Run Result} (hm : I.Keeps m (Result.Holds I.value)) {r : Result}
    (hr : r.Holds I.value) :
    I.Keeps (match r with | .returned n => pure (.returned n) | _ => m)
      (Result.Holds I.value) := by
  cases r with
  | returned n => exact pure_keeps hr
  | nothing | int _ | bool _ => exact hm

theorem statements_keep (hr : I.Respected rec) (ha : ∀ a ∈ as, I.tree a) :
    I.Keeps (statementsWith rec as) (Result.Holds I.value) := by
  induction as with
  | nil => exact pure_keeps trivial
  | cons a as ih =>
    obtain ⟨ha, has⟩ := List.forall_mem_cons.mp ha
    exact (hr a ha).bind fun r hgood => unlessReturned_keeps (ih has) hgood

theorem first_keeps (hr : I.Respected rec) (ha : ∀ a ∈ as, I.tree a)
    (hnil : as = [] → I.fault .noChild) : I.Keeps (firstWith rec as) (Result.Holds I.value) := by
  cases as with
  | nil => exact fault_keeps (hnil rfl)
  | cons a as => exact hr a (ha a (by simp))

theorem program_keeps (hr : I.Respected rec) (ha : ∀ a ∈ as, I.tree a)
    (hnil : as = [] → I.fault .noChild) :
    I.Keeps (programWith rec as) (Result.Holds I.value) := by
  have hzero : I.Keeps (pure (.returned 0)) (Result.Holds I.value) := fun _ hs => ⟨hs, I.zero⟩
  exact (first_keeps hr ha hnil).bind fun r hgood => unlessReturned_keeps hzero hgood

theorem functionStatement_keeps {x : String} {params : List String} {body : Ast}
    {span : Option Span} (ha : I.tree (.function x params body span)) :
    I.Keeps (functionStatement x params body span) (Result.Holds I.value) := by
  unfold functionStatement
  split
  · exact error_keeps (I.own_error ha .repeatedParameter)
  · apply (declareFunction_keeps ha).bind
    intro made _
    split
    · exact pure_keeps trivial
    · exact error_keeps (I.own_error ha .redefinedFunction)

theorem declaration_keeps (hr : I.Respected rec) {x : String} {initializer : Option Ast}
    {span : Option Span} (ha : I.tree (.declaration x initializer span)) :
    I.Keeps (declarationWith rec x initializer span) (Result.Holds I.value) := by
  apply (declare_keeps x).bind
  intro made _
  split
  · exact error_keeps (I.own_error ha .redefinedVariable)
  · cases initializer with
    | none => exact pure_keeps trivial
    | some e =>
      apply (int_keeps hr (I.child ha (by simp [Ast.children]))).bind
      intro n hn
      exact (set_keeps x hn).bind fun _ _ => pure_keeps trivial

theorem assignment_keeps (hr : I.Respected rec) {x : String} {value : Ast} {span : Option Span}
    (ha : I.tree (.assignment x value span)) :
    I.Keeps (assignmentWith rec x value span) (Result.Holds I.value) := by
  apply (isDefined_keeps x).bind
  intro defined _
  split
  · exact error_keeps (I.own_error ha .undeclared)
  · apply (int_keeps hr (I.child ha (by simp [Ast.children]))).bind
    intro n hn
    exact (set_keeps x hn).bind fun _ _ => pure_keeps trivial

theorem branch_keeps (hr : I.Respected rec) (ha : I.tree a) {positive negative : Option Ast}
    (hp : ∀ b ∈ positive, I.tree b) (hn : ∀ b ∈ negative, I.tree b) :
    I.Keeps (branchWith rec a positive negative) (Result.Holds I.value) := by
  apply (bool_keeps hr ha).bind
  intro taken _
  have hbody : ∀ b ∈ (if taken then positive else negative), I.tree b := by
    cases taken
    · exact hn
    · exact hp
  split
  · exact pure_keeps trivial
  · next b hb => exact hr b (hbody b hb)

theorem loop_keeps (hr : I.Respected rec) {condition body : Ast} (hc : I.tree condition)
    (hb : I.tree body) (limit : Nat) :
    I.Keeps (loopWith rec condition body limit) (Result.Holds I.value) := by
  induction limit with
  | zero => exact fun _ _ => trivial
  | succ limit ih =>
    apply (bool_keeps hr hc).bind
    intro again _
    split
    · exact (hr body hb).bind fun r hgood => unlessReturned_keeps ih hgood
    · exact pure_keeps trivial

theorem result_keeps (hr : I.Respected rec) (ha : I.tree a) :
    I.Keeps (resultWith rec a) (Result.Holds I.value) :=
  (int_keeps hr ha).bind fun _ hn => pure_keeps hn

theorem statement_keeps (hr : I.Respected rec) (ha : I.tree a) :
    I.Keeps (statementWith rec a) (Result.Holds I.value) := by
  have hnothing : I.Keeps (pure .nothing) (Result.Holds I.value) := fun _ hs => ⟨hs, trivial⟩
  exact (hr a ha).bind fun r hgood => unlessReturned_keeps hnothing hgood

theorem operation_keeps (hr : I.Respected rec) {left right : Ast} {op : String}
    {span : Option Span} (ha : I.tree (.operation left op right span)) :
    I.Keeps (operationWith rec left op right span) (Result.Holds I.value) := by
  have hl : I.tree left := I.child ha (by simp [Ast.children])
  have hrt : I.tree right := I.child ha (by simp [Ast.children])
  unfold operationWith
  split
  · next hnone => exact fault_keeps (I.own_fault ha (by simp [Ast.ownFault?, hnone]))
  · split
    · next f hf =>
      refine (int_keeps hr hl).bind fun a ha' => (int_keeps hr hrt).bind fun b hb => ?_
      have hvalue : I.Keeps (ofExcept span (f a b)) I.value :=
        ofExcept_keeps (fun n hn => I.arithmetic ⟨f, hf, hn⟩ ha' hb)
          fun cause hc => I.own_error ha (.arithmetic ⟨f, hf, hc⟩)
      exact hvalue.bind fun n hn => pure_keeps hn
    · refine (int_keeps hr hl).bind fun a _ => (int_keeps hr hrt).bind fun b _ => ?_
      exact pure_keeps trivial
    · refine (bool_keeps hr hl).bind fun a _ => (bool_keeps hr hrt).bind fun b _ => ?_
      exact pure_keeps trivial

theorem literal_keeps {text : String} {span : Option Span} (ha : I.tree (.literal text span)) :
    I.Keeps (do return .int (← ofExcept span (literalValue text))) (Result.Holds I.value) := by
  have hvalue : I.Keeps (ofExcept span (literalValue text)) I.value :=
    ofExcept_keeps (fun n hn => I.literal hn) fun cause hc => I.own_error ha (.badLiteral hc)
  exact hvalue.bind fun n hn => pure_keeps hn

theorem reference_keeps {x : String} {span : Option Span} (ha : I.tree (.reference x span)) :
    I.Keeps (referenceValue x span) (Result.Holds I.value) := by
  apply (value_keeps x).bind
  intro v hv
  cases v with
  | some n => exact pure_keeps (hv n rfl)
  | none => exact error_keeps (I.own_error ha .unset)

theorem bindParams_keeps (xs : List String) {ns : List Int} (hns : ∀ n ∈ ns, I.value n) :
    I.Keeps (bindParams xs ns) (fun _ => True) := by
  induction xs generalizing ns with
  | nil => exact pure_keeps trivial
  | cons x xs ih =>
    cases ns with
    | nil => exact pure_keeps trivial
    | cons n ns =>
      obtain ⟨hn, hns⟩ := List.forall_mem_cons.mp hns
      exact (declare_keeps x).bind fun _ _ => (set_keeps x hn).bind fun _ _ => ih hns

theorem apply_keeps (hr : I.Respected rec) {f : Function} (hf : I.tree f.body) {ns : List Int}
    (hns : ∀ n ∈ ns, I.value n) : I.Keeps (applyWith rec f ns) (Result.Holds I.value) := by
  have hbody : I.Keeps (do bindParams f.params ns; rec f.body) (Result.Holds I.value) :=
    (bindParams_keeps f.params hns).bind fun _ _ => hr f.body hf
  exact (inFrame_keeps hbody).bind fun r hgood => pure_keeps (I.returnedOrZero_holds hgood)

theorem call_keeps (hr : I.Respected rec) {x : String} {span : Option Span}
    (ha : I.tree (.call x as span)) : I.Keeps (callWith rec x as span) (Result.Holds I.value) := by
  have hargs : ∀ a ∈ as, I.tree a := fun a h => I.child ha h
  refine (ints_keep hr hargs).bind fun ns hns => (function_keeps x).bind fun found hfound => ?_
  cases found with
  | some f =>
    dsimp only
    split
    · exact apply_keeps hr (hfound f rfl) hns
    · exact error_keeps (I.own_error ha .arity)
  | none =>
    apply (callBuiltin_keeps x hns).bind
    intro printed _
    split
    · exact pure_keeps trivial
    · exact error_keeps (I.own_error ha .unknownFunction)

/-- One node keeps an invariant if the nodes inside it and the bodies of functions do. -/
theorem node_keeps (hr : I.Respected rec) (limit : Nat) (ha : I.tree a) :
    I.Keeps (nodeWith rec limit a) (Result.Holds I.value) := by
  have hchild : ∀ b ∈ a.children, I.tree b := fun b hb => I.child ha hb
  cases a with
  | program children span =>
    refine program_keeps hr hchild fun hnil => I.own_fault ha ?_
    subst hnil
    rfl
  | block statements span => exact statements_keep hr hchild
  | braced children span =>
    refine inFrame_keeps (first_keeps hr hchild fun hnil => I.own_fault ha ?_)
    subst hnil
    rfl
  | function x params body span => exact functionStatement_keeps ha
  | declaration x initializer span => exact declaration_keeps hr ha
  | assignment x value span => exact assignment_keeps hr ha
  | branch condition positive negative span =>
    simp only [Ast.children, List.mem_cons, List.mem_append, Option.mem_toList] at hchild
    exact branch_keeps hr (hchild _ (.inl rfl)) (fun b hb => hchild b (.inr (.inl hb)))
      fun b hb => hchild b (.inr (.inr hb))
  | loop condition body span =>
    exact loop_keeps hr (hchild condition (by simp [Ast.children]))
      (hchild body (by simp [Ast.children])) limit
  | result value span => exact result_keeps hr (hchild value (by simp [Ast.children]))
  | statement value span => exact statement_keeps hr (hchild value (by simp [Ast.children]))
  | operation left op right span => exact operation_keeps hr ha
  | parens inner span => exact hr inner (hchild inner (by simp [Ast.children]))
  | literal text span => exact literal_keeps ha
  | reference x span => exact reference_keeps ha
  | call x args span => exact call_keeps hr ha
  | broken kind f span | hole f => exact fault_keeps (I.own_fault ha rfl)

end Nodes

/-- An invariant is kept by every run. The induction is on the steps, for the body of a function is
no part of the call; that the body is a tree that there may be comes from the state. -/
theorem eval_keeps (I : Invariant) (steps : Nat) : I.Respected (eval steps) := by
  induction steps with
  | zero => exact fun _ _ _ _ => trivial
  | succ steps ih => exact fun a ha => (visit_keeps a).bind fun _ _ => node_keeps ih steps ha

theorem evaluate_keeps (I : Invariant) {tree : Ast} (h : ∀ a ∈ tree.children, I.tree a)
    (hnil : tree.children = [] → I.fault .noChild) {tracing : Bool}
    (hs : I.state (.initial tracing)) (steps : Nat) :
    (evaluate steps tracing tree).Ends (fun n t => I.state t ∧ I.value n)
      (fun e t => I.state t ∧ I.Breaks e) :=
  evaluate_ends (program_keeps (I.eval_keeps steps) h hnil _ hs) fun _ _ hr =>
    ⟨hr.1, I.returnedOrZero_holds hr.2⟩

end Invariant

end Bronti
