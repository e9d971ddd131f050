import Bronti.Proofs.Decimal
import Bronti.Proofs.Endings
import Bronti.Proofs.MachineArithmetic
import Bronti.Proofs.WellKinded

/-!
Kinds are safe: where every expression is used as its static kind allows, no run meets a value of
the wrong kind, whichever functions are declared and whoever calls them.
-/
namespace Bronti

/-- The kind of the error that a run breaks off with; a fault has none. -/
def Stop.errorKind? : Stop → Option ErrorKind
  | .error e => some e.cause.kind
  | .fault _ => none

/-- From a state with well-kinded functions, the run never meets a value of the wrong kind, and it
answers well and leaves such a state. -/
def Safe {α : Type} (m : Run α) (good : α → Prop) : Prop :=
  ∀ s, s.WellKinded →
    (m s).Ends (fun a t => t.WellKinded ∧ good a) (fun e _ => e.errorKind? ≠ some .typeMismatch)

/-- A result that an expression may have, as its static kind tells. -/
def Ast.Allows (a : Ast) (r : Result) : Prop := ∀ k, a.staticKind = some k → r.valueKind? = some k

open Run Eval

section Steps

variable {α β : Type}

theorem Safe.bind {m : Run α} {f : α → Run β} {good : α → Prop} {good' : β → Prop}
    (hm : Safe m good) (hf : ∀ a, good a → Safe (f a) good') : Safe (m >>= f) good' := by
  intro s hs
  exact bind_ends (hm s hs) fun a t ht => hf a ht.2 t ht.1

theorem Safe.mono {m : Run α} {good good' : α → Prop} (hm : Safe m good)
    (h : ∀ a, good a → good' a) : Safe m good' := fun s hs =>
  (hm s hs).mono (fun a _ ht => ⟨ht.1, h a ht.2⟩) fun _ _ he => he

theorem pure_safe {a : α} {good : α → Prop} (h : good a) : Safe (pure a) good := fun _ hs => ⟨hs, h⟩

theorem error_safe {cause : Cause} (hc : cause.kind ≠ .typeMismatch) (span : Option Span)
    (good : α → Prop) : Safe (Run.error cause span) good := fun _ _ => by
  simpa [Run.error, Stop.errorKind?] using hc

theorem fault_safe (f : Fault) (good : α → Prop) : Safe (Run.fault f) good := fun _ _ => by
  simp [Run.fault, Stop.errorKind?]

theorem ofExcept_safe {span : Option Span} {e : Except Cause α} {good : α → Prop}
    (hok : ∀ a, e = .ok a → good a) (herror : ∀ c, e = .error c → c.kind ≠ .typeMismatch) :
    Safe (ofExcept span e) good := by
  cases e with
  | ok a => exact pure_safe (hok a rfl)
  | error c => exact error_safe (herror c rfl) span good

theorem visit_safe (a : Ast) : Safe (visit a) (fun _ => True) := fun s hs =>
  ⟨hs.of_kept (.of_frames (State.frames_visit s a)), trivial⟩

theorem attempt_safe {f : State → Option State} {good : Bool → Prop}
    (hsome : ∀ s t, s.WellKinded → f s = some t → t.WellKinded ∧ good true) (hnone : good false) :
    Safe (attempt f) good := fun s hs =>
  attempt_ends (fun t ht => hsome s t hs ht) fun _ => ⟨hs, hnone⟩

theorem declare_safe (x : String) : Safe (declare x) (fun _ => True) :=
  attempt_safe (fun _ _ hs ht => ⟨hs.declare ht, trivial⟩) trivial

theorem set_safe (x : String) (n : Int) : Safe (set x n) (fun _ => True) :=
  attempt_safe (fun _ _ hs ht => ⟨hs.of_kept (State.kept_set ht), trivial⟩) trivial

theorem declareFunction_safe (x : String) {g : Function} (hg : g.body.WellKinded) :
    Safe (declareFunction x g) (fun _ => True) :=
  attempt_safe (fun _ _ hs ht => ⟨hs.declareFunction hg ht, trivial⟩) trivial

/-- Only the function that is built in is called without a declaration. -/
theorem callBuiltin_safe (name : String) (args : List Int) :
    Safe (callBuiltin name args) (fun made => made = true → name = builtinName) := by
  refine attempt_safe (fun s t hs ht => ?_) (by simp)
  refine ⟨hs.of_kept (.of_frames (State.frames_callBuiltin ht)), fun _ => ?_⟩
  unfold State.callBuiltin? at ht
  split at ht
  · next h => exact h
  · cases ht

theorem function_safe (x : String) :
    Safe (function? x) (fun found => ∀ f, found = some f → f.body.WellKinded) := fun _ hs =>
  ⟨hs, fun _ hf => hs.function hf⟩

theorem inFrame_safe {m : Run α} {good : α → Prop} (hm : Safe m good) : Safe (inFrame m) good := by
  intro s hs
  refine inFrame_ends (hm s.opened hs.opened) (fun a t ht => ?_) fun e t he => ?_
  · exact closing_ends (fun u hu => ⟨ht.1.close hu, ht.2⟩) fun _ => by simp [Stop.errorKind?]
  · exact closing_ends (fun u _ => he) fun _ => by simp [Stop.errorKind?]

end Steps

section Nodes

variable {rec : Ast → Run Result}

theorem int_safe (hr : ∀ a, a.WellKinded → Safe (rec a) a.Allows) {a : Ast} (ha : a.WellKinded)
    (hk : a.staticKind = some .integer) : Safe (intWith rec a) (fun _ => True) := by
  apply (hr a ha).bind
  intro r hgood
  have hkind := hgood _ hk
  cases r with
  | int n => exact pure_safe trivial
  | nothing | bool _ | returned _ => simp [Result.valueKind?] at hkind

theorem bool_safe (hr : ∀ a, a.WellKinded → Safe (rec a) a.Allows) {a : Ast} (ha : a.WellKinded)
    (hk : a.staticKind = some .boolean) : Safe (boolWith rec a) (fun _ => True) := by
  apply (hr a ha).bind
  intro r hgood
  have hkind := hgood _ hk
  cases r with
  | bool b => exact pure_safe trivial
  | nothing | int _ | returned _ => simp [Result.valueKind?] at hkind

theorem ints_safe (hr : ∀ a, a.WellKinded → Safe (rec a) a.Allows) {as : List Ast}
    (ha : ∀ a ∈ as, a.WellKinded) (hk : ∀ a ∈ as, a.staticKind = some .integer) :
    Safe (intsWith rec as) (fun _ => True) := by
  induction as with
  | nil => exact pure_safe trivial
  | cons a as ih =>
    apply (int_safe hr (ha a (by simp)) (hk a (by simp))).bind
    intro n _
    have hrest := ih (fun b hb => ha b (by simp [hb])) fun b hb => hk b (by simp [hb])
    exact hrest.bind fun ns _ => pure_safe trivial

theorem statements_safe (hr : ∀ a, a.WellKinded → Safe (rec a) a.Allows) {as : List Ast}
    (ha : ∀ a ∈ as, a.WellKinded) : Safe (statementsWith rec as) (fun _ => True) := by
  induction as with
  | nil => exact pure_safe trivial
  | cons a as ih =>
    apply (hr a (ha a (by simp))).bind
    intro r _
    cases r with
    | returned n => exact pure_safe trivial
    | nothing | int _ | bool _ => exact ih fun b hb => ha b (by simp [hb])

theorem first_safe (hr : ∀ a, a.WellKinded → Safe (rec a) a.Allows) {as : List Ast}
    (ha : ∀ a ∈ as, a.WellKinded) : Safe (firstWith rec as) (fun _ => True) := by
  cases as with
  | nil => exact fault_safe _ _
  | cons a as => exact (hr a (ha a (by simp))).mono fun _ _ => trivial

theorem program_safe (hr : ∀ a, a.WellKinded → Safe (rec a) a.Allows) {as : List Ast}
    (ha : ∀ a ∈ as, a.WellKinded) : Safe (programWith rec as) (fun _ => True) := by
  apply (first_safe hr ha).bind
  intro r _
  cases r <;> exact pure_safe trivial

theorem functionStatement_safe (name : String) (params : List String) {body : Ast}
    (hb : body.WellKinded) (span : Option Span) :
    Safe (functionStatement name params body span) (fun _ => True) := by
  unfold functionStatement
  split
  · exact error_safe (by simp [Cause.kind]) _ _
  · apply (declareFunction_safe name hb).bind
    intro made _
    split
    · exact pure_safe trivial
    · exact error_safe (by simp [Cause.kind]) _ _

theorem declaration_safe (hr : ∀ a, a.WellKinded → Safe (rec a) a.Allows) (name : String)
    {initializer : Option Ast} (hi : ∀ e ∈ initializer, e.WellKinded)
    (hk : ∀ e ∈ initializer, e.staticKind = some .integer) (span : Option Span) :
    Safe (declarationWith rec name initializer span) (fun _ => True) := by
  apply (declare_safe name).bind
  intro made _
  split
  · exact error_safe (by simp [Cause.kind]) _ _
  · cases initializer with
    | none => exact pure_safe trivial
    | some e =>
      apply (int_safe hr (hi e rfl) (hk e rfl)).bind
      intro n _
      exact (set_safe name n).bind fun _ _ => pure_safe trivial

theorem assignment_safe (hr : ∀ a, a.WellKinded → Safe (rec a) a.Allows) (name : String)
    {value : Ast} (hv : value.WellKinded) (hk : value.staticKind = some .integer)
    (span : Option Span) : Safe (assignmentWith rec name value span) (fun _ => True) := by
  have hdefined : Safe (isDefined name) (fun _ => True) := fun _ hs => ⟨hs, trivial⟩
  apply hdefined.bind
  intro defined _
  split
  · exact error_safe (by simp [Cause.kind]) _ _
  · apply (int_safe hr hv hk).bind
    intro n _
    exact (set_safe name n).bind fun _ _ => pure_safe trivial

theorem branch_safe (hr : ∀ a, a.WellKinded → Safe (rec a) a.Allows) {condition : Ast}
    {positive negative : Option Ast} (hc : condition.WellKinded)
    (hk : condition.staticKind = some .boolean) (hp : ∀ a ∈ positive, a.WellKinded)
    (hn : ∀ a ∈ negative, a.WellKinded) :
    Safe (branchWith rec condition positive negative) (fun _ => True) := by
  apply (bool_safe hr hc hk).bind
  intro b _
  have hbody : ∀ a ∈ (if b then positive else negative), a.WellKinded := by
    cases b
    · exact hn
    · exact hp
  split
  · exact pure_safe trivial
  · next a ha => exact (hr a (hbody a ha)).mono fun _ _ => trivial

theorem loop_safe (hr : ∀ a, a.WellKinded → Safe (rec a) a.Allows) {condition body : Ast}
    (hc : condition.WellKinded) (hk : condition.staticKind = some .boolean)
    (hb : body.WellKinded) (limit : Nat) :
    Safe (loopWith rec condition body limit) (fun _ => True) := by
  induction limit with
  | zero => exact fun _ _ => trivial
  | succ limit ih =>
    apply (bool_safe hr hc hk).bind
    intro b _
    split
    · apply (hr body hb).bind
      intro r _
      cases r with
      | returned n => exact pure_safe trivial
      | nothing | int _ | bool _ => exact ih
    · exact pure_safe trivial

theorem result_safe (hr : ∀ a, a.WellKinded → Safe (rec a) a.Allows) {value : Ast}
    (hv : value.WellKinded) (hk : value.staticKind = some .integer) :
    Safe (resultWith rec value) (fun _ => True) :=
  (int_safe hr hv hk).bind fun _ _ => pure_safe trivial

theorem statement_safe (hr : ∀ a, a.WellKinded → Safe (rec a) a.Allows) {value : Ast}
    (hv : value.WellKinded) : Safe (statementWith rec value) (fun _ => True) := by
  apply (hr value hv).bind
  intro r _
  cases r <;> exact pure_safe trivial

theorem arithmetic_errors {o : Operator} {f : Int → Int → Except Cause Int}
    (h : o.meaning = .arithmetic f) {a b : Int} {c : Cause} (hc : f a b = .error c) :
    c.kind ≠ .typeMismatch := by
  have herror : o.Computes a b (.error c) := ⟨f, h, hc⟩
  simp [herror.error_kind]

theorem operation_safe (hr : ∀ a, a.WellKinded → Safe (rec a) a.Allows) {left right : Ast}
    {op : String} {span : Option Span} (ha : (Ast.operation left op right span).WellKinded) :
    Safe (operationWith rec left op right span) (Ast.operation left op right span).Allows := by
  cases ha with
  | operation hl hrt kinds =>
    unfold operationWith
    split
    · exact fault_safe _ _
    · next o ho =>
      obtain ⟨hkl, hkr⟩ := kinds o ho
      have hkind : (Ast.operation left op right span).staticKind = some o.resultKind := by
        simp [Ast.staticKind, ho]
      split
      · next f hf =>
        simp only [Operator.operandKind, Operator.resultKind, hf] at hkl hkr hkind
        refine (int_safe hr hl hkl).bind fun a _ => (int_safe hr hrt hkr).bind fun b _ => ?_
        have hvalue : Safe (ofExcept span (f a b)) (fun _ => True) :=
          ofExcept_safe (fun _ _ => trivial) fun c hc => arithmetic_errors hf hc
        refine hvalue.bind fun n _ => pure_safe ?_
        exact fun k hk => hkind.symm.trans hk
      · next f hf =>
        simp only [Operator.operandKind, Operator.resultKind, hf] at hkl hkr hkind
        refine (int_safe hr hl hkl).bind fun a _ => (int_safe hr hrt hkr).bind fun b _ => ?_
        exact pure_safe fun k hk => hkind.symm.trans hk
      · next f hf =>
        simp only [Operator.operandKind, Operator.resultKind, hf] at hkl hkr hkind
        refine (bool_safe hr hl hkl).bind fun a _ => (bool_safe hr hrt hkr).bind fun b _ => ?_
        exact pure_safe fun k hk => hkind.symm.trans hk

theorem literal_safe (text : String) (span : Option Span) :
    Safe (do return .int (← ofExcept span (literalValue text))) (Ast.literal text span).Allows := by
  have hvalue : Safe (ofExcept span (literalValue text)) (fun _ => True) := by
    apply ofExcept_safe fun _ _ => trivial
    intro c hc
    rw [literalValue_error hc]
    simp [Cause.kind]
  exact hvalue.bind fun n _ => pure_safe fun k hk => hk

theorem reference_safe (name : String) (span : Option Span) :
    Safe (referenceValue name span) (Ast.reference name span).Allows := by
  have hvalue : Safe (value? name) (fun _ => True) := fun _ hs => ⟨hs, trivial⟩
  apply hvalue.bind
  intro v _
  cases v with
  | some n => exact pure_safe fun k hk => hk
  | none => exact error_safe (by simp [Cause.kind]) _ _

theorem bindParams_safe (xs : List String) (ns : List Int) :
    Safe (bindParams xs ns) (fun _ => True) := by
  induction xs generalizing ns with
  | nil => exact pure_safe trivial
  | cons x xs ih =>
    cases ns with
    | nil => exact pure_safe trivial
    | cons n ns =>
      exact (declare_safe x).bind fun _ _ => (set_safe x n).bind fun _ _ => ih ns

/-- A declared function gives an integer. -/
theorem apply_safe (hr : ∀ a, a.WellKinded → Safe (rec a) a.Allows) {f : Function}
    (hf : f.body.WellKinded) (args : List Int) :
    Safe (applyWith rec f args) (fun r => r.valueKind? = some .integer) := by
  have hbody : Safe (do bindParams f.params args; rec f.body) (fun _ => True) :=
    (bindParams_safe f.params args).bind fun _ _ => (hr f.body hf).mono fun _ _ => trivial
  exact (inFrame_safe hbody).bind fun r _ => pure_safe rfl

theorem call_safe (hr : ∀ a, a.WellKinded → Safe (rec a) a.Allows) {name : String}
    {args : List Ast} {span : Option Span} (ha : (Ast.call name args span).WellKinded) :
    Safe (callWith rec name args span) (Ast.call name args span).Allows := by
  cases ha with
  | call h kinds =>
    refine (ints_safe hr h kinds).bind fun ns _ => (function_safe name).bind fun found hfound => ?_
    cases found with
    | some f =>
      dsimp only
      split
      · refine (apply_safe hr (hfound f rfl) ns).mono fun r hint k hk => ?_
        simp only [Ast.staticKind] at hk
        split at hk
        · cases hk
        · exact hint.trans hk
      · exact error_safe (by simp [Cause.kind]) _ _
    | none =>
      apply (callBuiltin_safe name ns).bind
      intro made hmade
      split
      · next hm =>
        apply pure_safe
        intro k hk
        simp [Ast.staticKind, hmade hm] at hk
      · exact error_safe (by simp [Cause.kind]) _ _

theorem Ast.allows_any {a : Ast} (h : a.staticKind = none) (r : Result) : a.Allows r := by
  intro k hk
  rw [h] at hk
  cases hk

/-- One node is safe if the nodes inside it and the bodies of functions are. -/
theorem node_safe (hr : ∀ a, a.WellKinded → Safe (rec a) a.Allows) (limit : Nat) {a : Ast}
    (ha : a.WellKinded) : Safe (nodeWith rec limit a) a.Allows := by
  cases ha with
  | program h => exact (program_safe hr h).mono fun r _ => Ast.allows_any rfl r
  | block h => exact (statements_safe hr h).mono fun r _ => Ast.allows_any rfl r
  | braced h => exact (inFrame_safe (first_safe hr h)).mono fun r _ => Ast.allows_any rfl r
  | @function name params body span h =>
    exact (functionStatement_safe name params h span).mono fun r _ => Ast.allows_any rfl r
  | @declaration name initializer span h kind =>
    exact (declaration_safe hr name h kind span).mono fun r _ => Ast.allows_any rfl r
  | @assignment name value span h kind =>
    exact (assignment_safe hr name h kind span).mono fun r _ => Ast.allows_any rfl r
  | branch h kind hp hn =>
    exact (branch_safe hr h kind hp hn).mono fun r _ => Ast.allows_any rfl r
  | loop h kind hb => exact (loop_safe hr h kind hb limit).mono fun r _ => Ast.allows_any rfl r
  | result h kind => exact (result_safe hr h kind).mono fun r _ => Ast.allows_any rfl r
  | statement h => exact (statement_safe hr h).mono fun r _ => Ast.allows_any rfl r
  | operation hl hrt kinds => exact operation_safe hr (.operation hl hrt kinds)
  | parens h => exact hr _ h
  | literal => exact literal_safe _ _
  | reference => exact reference_safe _ _
  | call h kinds => exact call_safe hr (.call h kinds)
  | broken | hole => exact fault_safe _ _

end Nodes

/-- Safety of a whole run is by induction on its steps: a call runs a body that was declared, and
these are all well-kinded. -/
theorem eval_safe (steps : Nat) {a : Ast} (ha : a.WellKinded) : Safe (eval steps a) a.Allows := by
  induction steps generalizing a with
  | zero => exact fun _ _ => trivial
  | succ steps ih => exact (visit_safe a).bind fun _ _ => node_safe (fun _ => ih) steps ha

/-- Where every expression is used as its static kind allows, no evaluation from a fresh state
breaks off for a value of the wrong kind, be it of the tree as a node or as a program. -/
theorem evaluation_no_mismatch {tree : Ast} (h : tree.WellKinded) (steps : Nat) (tracing : Bool) :
    (eval steps tree (.initial tracing)).Ends (fun _ _ => True)
        (fun e _ => e.errorKind? ≠ some .typeMismatch) ∧
      (evaluate steps tracing tree).Ends (fun _ _ => True)
        (fun e _ => e.errorKind? ≠ some .typeMismatch) := by
  have hfresh := State.WellKinded.initial tracing
  refine ⟨(eval_safe steps h _ hfresh).mono (fun _ _ _ => trivial) fun _ _ he => he, ?_⟩
  have hrun := program_safe (fun _ => eval_safe steps) h.children _ hfresh
  unfold evaluate evalProgram
  split
  · trivial
  · next e s he =>
    rw [he] at hrun
    exact hrun
  · trivial

/-- A program that declares the function that is otherwise built in, and divides by zero in a call
of it that stands in parentheses. -/
theorem own_println_no_mismatch :
    ∃ e s, evaluate 20 false (.program [.block
      [.function "println" ["x"] (.result (.reference "x" none) none) none,
        .statement (.parens (.call "println"
          [.operation (.literal "1" none) "/" (.literal "0" none) none] none) none) none] none]
        none) =
      .stopped e s ∧ e.errorKind? ≠ some .typeMismatch := by
  have hdiv : Operator.ofSymbol? "/" = some .div := by decide
  have hquotient : Ast.WellKinded
      (.operation (.literal "1" none) "/" (.literal "0" none) none) := by
    refine .operation .literal .literal fun o ho => ?_
    cases hdiv.symm.trans ho
    exact ⟨rfl, rfl⟩
  have hfunction : Ast.WellKinded
      (.function "println" ["x"] (.result (.reference "x" none) none) none) :=
    .function (.result .reference rfl)
  have hcall : Ast.WellKinded (.statement (.parens (.call "println"
      [.operation (.literal "1" none) "/" (.literal "0" none) none] none) none) none) := by
    refine .statement (.parens (.call ?_ ?_))
    · simpa using hquotient
    · simp [Ast.staticKind, hdiv]
      rfl
  have hstop : ∃ e s, evaluate 20 false (.program [.block
      [.function "println" ["x"] (.result (.reference "x" none) none) none,
        .statement (.parens (.call "println"
          [.operation (.literal "1" none) "/" (.literal "0" none) none] none) none) none] none]
        none) =
      .stopped e s := ⟨_, _, rfl⟩
  obtain ⟨e, s, he⟩ := hstop
  have hblock : Ast.WellKinded (.block
      [.function "println" ["x"] (.result (.reference "x" none) none) none,
        .statement (.parens (.call "println"
          [.operation (.literal "1" none) "/" (.literal "0" none) none] none) none) none] none) :=
    .block (by simpa using ⟨hfunction, hcall⟩)
  have hprogram : Ast.WellKinded (.program [_] none) :=
    .program (List.forall_mem_singleton.mpr hblock)
  have hends := (evaluation_no_mismatch hprogram 20 false).2
  rw [he] at hends
  exact ⟨e, s, he, hends⟩

end Bronti
