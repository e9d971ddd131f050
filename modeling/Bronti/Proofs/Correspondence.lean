import Bronti.Eval
import Mathlib.Data.List.Forall2

/-!
Two runs side by side. A correspondence says which names, spans, trees and states of one run stand
for which of the other, and that the operations on states respect it. The evaluator respects it
then: nodes that match part for part run alike, whatever the frames and functions they meet.
-/
namespace Bronti

variable {World α β γ δ : Type}

/-- The two outcomes are of one form and their parts are related. Where the second run may be
`late`, a first run that is unfinished says nothing about it. -/
inductive Outcome.Tied (late : Prop) (good : α → β → Prop) (bad : Stop → Stop → Prop)
    (ends : State → State → Prop) : Outcome α → Outcome β → Prop
  | done {a : α} {b : β} {s t : State} (answer : good a b) (state : ends s t) :
      Tied late good bad ends (.done a s) (.done b t)
  | stopped {e f : Stop} {s t : State} (stop : bad e f) (state : ends s t) :
      Tied late good bad ends (.stopped e s) (.stopped f t)
  | unfinished : Tied late good bad ends .unfinished .unfinished
  | late (h : late) (o : Outcome β) : Tied late good bad ends .unfinished o

theorem Outcome.Tied.mono {late : Prop} {good good' : α → β → Prop} {bad bad' : Stop → Stop → Prop}
    {ends ends' : State → State → Prop} {o : Outcome α} {p : Outcome β}
    (h : o.Tied late good bad ends p) (hg : ∀ a b, good a b → good' a b)
    (hb : ∀ e f, bad e f → bad' e f) (hs : ∀ s t, ends s t → ends' s t) :
    o.Tied late good' bad' ends' p := by
  cases h with
  | done answer state => exact .done (hg _ _ answer) (hs _ _ state)
  | stopped stop state => exact .stopped (hb _ _ stop) (hs _ _ state)
  | unfinished => exact .unfinished
  | late h _ => exact .late h _

/-- The same cause, or the same but for a name. -/
inductive Cause.Renamed (vars funs : String → String → Prop) : Cause → Cause → Prop
  | same (c : Cause) : Renamed vars funs c c
  | redefinedVariable {x y : String} (h : vars x y) :
      Renamed vars funs (.redefinedVariable x) (.redefinedVariable y)
  | redefinedFunction {x y : String} (h : funs x y) :
      Renamed vars funs (.redefinedFunction x) (.redefinedFunction y)
  | undeclared {x y : String} (h : vars x y) : Renamed vars funs (.undeclared x) (.undeclared y)
  | unset {x y : String} (h : vars x y) : Renamed vars funs (.unset x) (.unset y)
  | unknownFunction {x y : String} (h : funs x y) :
      Renamed vars funs (.unknownFunction x) (.unknownFunction y)
  | arity {x y : String} (h : funs x y) (expected actual : Int) :
      Renamed vars funs (.arity x expected actual) (.arity y expected actual)

/-- The same break, but for names and spans that are related. -/
inductive Stop.Tied (vars funs : String → String → Prop)
    (spans : Option Span → Option Span → Prop) : Stop → Stop → Prop
  | error {c d : Cause} {s t : Option Span} (cause : c.Renamed vars funs d) (span : spans s t) :
      Tied vars funs spans (.error ⟨c, s⟩) (.error ⟨d, t⟩)
  | fault (f : Fault) : Tied vars funs spans (.fault f) (.fault f)

/-- How two runs correspond. States are related in a world, which changes where a frame is opened;
`declares` holds of the worlds in which something may be declared. -/
structure Correspondence (World : Type) where
  late : Prop
  vars : String → String → Prop
  funs : String → String → Prop
  spans : Option Span → Option Span → Prop
  functions : Function → Function → Prop
  tree : World → Ast → Ast → Prop
  state : World → State → State → Prop
  inside : World → World
  declares : World → Prop
  span_rel {w : World} {a b : Ast} : tree w a b → spans a.span b.span
  repeated_eq {xs ys : List String} :
    List.Forall₂ vars xs ys → (repeated xs).isEmpty = (repeated ys).isEmpty
  params_rel {f g : Function} : functions f g → List.Forall₂ vars f.params g.params
  body_rel {f g : Function} (w : World) : functions f g → tree (inside w) f.body g.body
  visit_first {w : World} {s t : State} (a : Ast) : state w s t → state w (s.visit a) t
  visit_second {w : World} {s t : State} (a : Ast) : state w s t → state w s (t.visit a)
  value_eq {w : World} {s t : State} {x y : String} :
    state w s t → vars x y → Chain.value? s.frames x = Chain.value? t.frames y
  isDefined_eq {w : World} {s t : State} {x y : String} :
    state w s t → vars x y → Chain.isDefined s.frames x = Chain.isDefined t.frames y
  function_rel {w : World} {s t : State} {x y : String} :
    state w s t → funs x y →
      Option.Rel functions (Chain.function? s.frames x) (Chain.function? t.frames y)
  declare_rel {w : World} {s t : State} {x y : String} :
    declares w → state w s t → vars x y → Option.Rel (state w) (s.declare? x) (t.declare? y)
  set_rel {w : World} {s t : State} {x y : String} (n : Int) :
    state w s t → vars x y → Option.Rel (state w) (s.set? x n) (t.set? y n)
  declareFunction_rel {w : World} {s t : State} {x y : String} {f g : Function} :
    declares w → state w s t → funs x y → functions f g →
      Option.Rel (state w) (s.declareFunction? x f) (t.declareFunction? y g)
  callBuiltin_rel {w : World} {s t : State} {x y : String} (ns : List Int) :
    state w s t → funs x y → Option.Rel (state w) (s.callBuiltin? x ns) (t.callBuiltin? y ns)
  declares_inside (w : World) : declares (inside w)
  opened_rel {w : World} {s t : State} : state w s t → state (inside w) s.opened t.opened
  close_rel {w : World} {s t : State} : state (inside w) s t →
    ∃ u v, s.close? = some u ∧ t.close? = some v ∧ state w u v

namespace Correspondence

/-- Breaks that correspond. -/
abbrev stop (c : Correspondence World) : Stop → Stop → Prop := Stop.Tied c.vars c.funs c.spans

/-- From states that correspond, the two runs end alike. -/
def Follows (c : Correspondence World) (w : World) (good : α → β → Prop) (m : Run α) (n : Run β) :
    Prop :=
  ∀ s t, c.state w s t → (m s).Tied c.late good c.stop (c.state w) (n t)

open Run Eval

variable {c : Correspondence World} {w : World}

section Steps

variable {good : α → β → Prop} {good' : γ → δ → Prop}

theorem Follows.bind {m : Run α} {n : Run β} {f : α → Run γ} {g : β → Run δ}
    (h : c.Follows w good m n) (hf : ∀ a b, good a b → c.Follows w good' (f a) (g b)) :
    c.Follows w good' (m >>= f) (n >>= g) := by
  intro s t hst
  have hmn := h s t hst
  change (Run.bind m f s).Tied _ _ _ _ (Run.bind n g t)
  unfold Run.bind
  generalize m s = o at hmn ⊢
  generalize n t = p at hmn ⊢
  cases hmn with
  | done answer state => exact hf _ _ answer _ _ state
  | stopped stop state => exact .stopped stop state
  | unfinished => exact .unfinished
  | late h _ => exact .late h _

/-- Runs whose answers are the same go on alike. -/
theorem Follows.andThen {m n : Run α} {f : α → Run γ} {g : α → Run δ} (h : c.Follows w Eq m n)
    (hf : ∀ a, c.Follows w good' (f a) (g a)) : c.Follows w good' (m >>= f) (n >>= g) := by
  apply h.bind
  rintro a _ rfl
  exact hf a

theorem pure_follows {a : α} {b : β} (h : good a b) : c.Follows w good (pure a) (pure b) :=
  fun _ _ hst => .done h hst

theorem error_follows {cause cause' : Cause} {span span' : Option Span}
    (h : cause.Renamed c.vars c.funs cause') (hs : c.spans span span') :
    c.Follows w good (Run.error cause span) (Run.error cause' span') :=
  fun _ _ hst => .stopped (.error h hs) hst

theorem fault_follows (f : Fault) : c.Follows w good (Run.fault f) (Run.fault f) :=
  fun _ _ hst => .stopped (.fault f) hst

theorem ofExcept_follows {span span' : Option Span} (hs : c.spans span span')
    (e : Except Cause α) : c.Follows w Eq (ofExcept span e) (ofExcept span' e) := by
  cases e with
  | ok a => exact pure_follows rfl
  | error cause => exact error_follows (.same cause) hs

theorem attempt_follows {f g : State → Option State}
    (h : ∀ s t, c.state w s t → Option.Rel (c.state w) (f s) (g t)) :
    c.Follows w Eq (attempt f) (attempt g) := by
  intro s t hst
  have hfg := h s t hst
  unfold attempt
  generalize f s = o at hfg ⊢
  generalize g t = p at hfg ⊢
  cases hfg with
  | some hst' => exact .done rfl hst'
  | none => exact .done rfl hst

theorem inFrame_follows {m : Run α} {n : Run β} (h : c.Follows (c.inside w) good m n) :
    c.Follows w good (inFrame m) (inFrame n) := by
  intro s t hst
  have hmn := h s.opened t.opened (c.opened_rel hst)
  unfold inFrame
  generalize m s.opened = o at hmn ⊢
  generalize n t.opened = p at hmn ⊢
  cases hmn with
  | done answer state =>
    obtain ⟨u, v, hu, hv, huv⟩ := c.close_rel state
    simpa [closing, hu, hv] using Outcome.Tied.done answer huv
  | stopped stop state =>
    obtain ⟨u, v, hu, hv, huv⟩ := c.close_rel state
    simpa [closing, hu, hv] using Outcome.Tied.stopped stop huv
  | unfinished => exact .unfinished
  | late h _ => exact .late h _

/-- A visit leaves no trace in what corresponds. -/
theorem Follows.visitFirst {m : Run α} {n : Run β} (h : c.Follows w good m n) (a : Ast) :
    c.Follows w good (do visit a; m) n :=
  fun s t hst => h (s.visit a) t (c.visit_first a hst)

theorem Follows.visitSecond {m : Run α} {n : Run β} (h : c.Follows w good m n) (b : Ast) :
    c.Follows w good m (do visit b; n) :=
  fun s t hst => h s (t.visit b) (c.visit_second b hst)

theorem value_follows {x y : String} (h : c.vars x y) : c.Follows w Eq (value? x) (value? y) :=
  fun _ _ hst => .done (c.value_eq hst h) hst

theorem isDefined_follows {x y : String} (h : c.vars x y) :
    c.Follows w Eq (isDefined x) (isDefined y) :=
  fun _ _ hst => .done (c.isDefined_eq hst h) hst

theorem function_follows {x y : String} (h : c.funs x y) :
    c.Follows w (Option.Rel c.functions) (function? x) (function? y) :=
  fun _ _ hst => .done (c.function_rel hst h) hst

theorem declare_follows (hw : c.declares w) {x y : String} (h : c.vars x y) :
    c.Follows w Eq (declare x) (declare y) :=
  attempt_follows fun _ _ hst => c.declare_rel hw hst h

theorem set_follows {x y : String} (h : c.vars x y) (n : Int) :
    c.Follows w Eq (set x n) (set y n) :=
  attempt_follows fun _ _ hst => c.set_rel n hst h

theorem declareFunction_follows (hw : c.declares w) {x y : String} (h : c.funs x y)
    {f g : Function} (hf : c.functions f g) :
    c.Follows w Eq (declareFunction x f) (declareFunction y g) :=
  attempt_follows fun _ _ hst => c.declareFunction_rel hw hst h hf

theorem callBuiltin_follows {x y : String} (h : c.funs x y) (ns : List Int) :
    c.Follows w Eq (callBuiltin x ns) (callBuiltin y ns) :=
  attempt_follows fun _ _ hst => c.callBuiltin_rel ns hst h

end Steps

/-- The runs of the nodes inside: those that correspond run alike, in every world. -/
def Respects (c : Correspondence World) (first second : Ast → Run Result) : Prop :=
  ∀ w a b, c.tree w a b → c.Follows w Eq (first a) (second b)

section Nodes

variable {first second : Ast → Run Result} {a b : Ast} {as bs : List Ast} {x y : String}
  {span span' : Option Span}

theorem int_follows (hr : c.Respects first second) (h : c.tree w a b) :
    c.Follows w Eq (intWith first a) (intWith second b) :=
  (hr w a b h).andThen fun _ => ofExcept_follows (c.span_rel h) _

theorem bool_follows (hr : c.Respects first second) (h : c.tree w a b) :
    c.Follows w Eq (boolWith first a) (boolWith second b) :=
  (hr w a b h).andThen fun _ => ofExcept_follows (c.span_rel h) _

theorem ints_follow (hr : c.Respects first second) (h : List.Forall₂ (c.tree w) as bs) :
    c.Follows w Eq (intsWith first as) (intsWith second bs) := by
  induction h with
  | nil => exact pure_follows rfl
  | cons hab _ ih =>
    exact (int_follows hr hab).andThen fun n => ih.andThen fun ns => pure_follows rfl

/-- Where neither returns, both go on; where one returns, both do. -/
theorem unlessReturned_follows {f g : Run Result} (h : c.Follows w Eq f g) (r : Result) :
    c.Follows w Eq
      (match r with | .returned n => pure (.returned n) | _ => f)
      (match r with | .returned n => pure (.returned n) | _ => g) := by
  cases r with
  | returned n => exact pure_follows rfl
  | nothing | int _ | bool _ => exact h

theorem statements_follow (hr : c.Respects first second) (h : List.Forall₂ (c.tree w) as bs) :
    c.Follows w Eq (statementsWith first as) (statementsWith second bs) := by
  induction h with
  | nil => exact pure_follows rfl
  | cons hab _ ih => exact (hr _ _ _ hab).andThen (unlessReturned_follows ih)

theorem first_follows (hr : c.Respects first second) (h : List.Forall₂ (c.tree w) as bs) :
    c.Follows w Eq (firstWith first as) (firstWith second bs) := by
  cases h with
  | nil => exact fault_follows _
  | cons hab _ => exact hr _ _ _ hab

theorem program_follows (hr : c.Respects first second) (h : List.Forall₂ (c.tree w) as bs) :
    c.Follows w Eq (programWith first as) (programWith second bs) :=
  (first_follows hr h).andThen (unlessReturned_follows (pure_follows rfl))

theorem functionStatement_follows (hw : c.declares w) (hx : c.funs x y)
    {params params' : List String} (hf : c.functions ⟨params, a⟩ ⟨params', b⟩)
    (hs : c.spans span span') :
    c.Follows w Eq (functionStatement x params a span) (functionStatement y params' b span') := by
  unfold functionStatement
  rw [c.repeated_eq (c.params_rel hf)]
  split
  · exact error_follows (.same _) hs
  · apply (declareFunction_follows hw hx hf).andThen
    intro made
    cases made with
    | true => exact pure_follows rfl
    | false => exact error_follows (.redefinedFunction hx) hs

theorem declaration_follows (hr : c.Respects first second) (hw : c.declares w) (hx : c.vars x y)
    {i j : Option Ast} (hi : Option.Rel (c.tree w) i j) (hs : c.spans span span') :
    c.Follows w Eq (declarationWith first x i span) (declarationWith second y j span') := by
  apply (declare_follows hw hx).andThen
  intro made
  cases made with
  | false => exact error_follows (.redefinedVariable hx) hs
  | true =>
    cases hi with
    | none => exact pure_follows rfl
    | some h =>
      exact (int_follows hr h).andThen fun n => (set_follows hx n).andThen fun _ => pure_follows rfl

theorem assignment_follows (hr : c.Respects first second) (hx : c.vars x y) (h : c.tree w a b)
    (hs : c.spans span span') :
    c.Follows w Eq (assignmentWith first x a span) (assignmentWith second y b span') := by
  apply (isDefined_follows hx).andThen
  intro defined
  cases defined with
  | false => exact error_follows (.undeclared hx) hs
  | true =>
    exact (int_follows hr h).andThen fun n => (set_follows hx n).andThen fun _ => pure_follows rfl

theorem branch_follows (hr : c.Respects first second) (h : c.tree w a b)
    {positive positive' negative negative' : Option Ast}
    (hp : Option.Rel (c.tree w) positive positive')
    (hn : Option.Rel (c.tree w) negative negative') :
    c.Follows w Eq (branchWith first a positive negative)
      (branchWith second b positive' negative') := by
  apply (bool_follows hr h).andThen
  intro taken
  have hbody : Option.Rel (c.tree w) (if taken then positive else negative)
      (if taken then positive' else negative') := by
    cases taken
    · exact hn
    · exact hp
  generalize (if taken then positive else negative) = p at hbody ⊢
  generalize (if taken then positive' else negative') = q at hbody ⊢
  cases hbody with
  | none => exact pure_follows rfl
  | some h => exact hr _ _ _ h

/-- The second run has as many rounds as the first one, or more where it may be late. -/
theorem loop_follows (hr : c.Respects first second) (h : c.tree w a b) {body body' : Ast}
    (hb : c.tree w body body') {limit limit' : Nat} (hle : limit ≤ limit')
    (hlate : c.late ∨ limit = limit') :
    c.Follows w Eq (loopWith first a body limit) (loopWith second b body' limit') := by
  induction limit generalizing limit' with
  | zero =>
    intro s t _
    rcases hlate with hlate | rfl
    · exact .late hlate _
    · exact .unfinished
  | succ limit ih =>
    cases limit' with
    | zero => omega
    | succ limit' =>
      have hrest := ih (Nat.le_of_succ_le_succ hle) (hlate.imp_right Nat.succ.inj)
      apply (bool_follows hr h).andThen
      intro again
      cases again with
      | true => exact (hr _ _ _ hb).andThen (unlessReturned_follows hrest)
      | false => exact pure_follows rfl

theorem result_follows (hr : c.Respects first second) (h : c.tree w a b) :
    c.Follows w Eq (resultWith first a) (resultWith second b) :=
  (int_follows hr h).andThen fun _ => pure_follows rfl

theorem statement_follows (hr : c.Respects first second) (h : c.tree w a b) :
    c.Follows w Eq (statementWith first a) (statementWith second b) :=
  (hr w a b h).andThen (unlessReturned_follows (pure_follows rfl))

theorem operation_follows (hr : c.Respects first second) {left left' right right' : Ast}
    (hl : c.tree w left left') (op : String) (hrt : c.tree w right right')
    (hs : c.spans span span') :
    c.Follows w Eq (operationWith first left op right span)
      (operationWith second left' op right' span') := by
  unfold operationWith
  cases Operator.ofSymbol? op with
  | none => exact fault_follows _
  | some o =>
    cases hm : o.meaning with
    | arithmetic f =>
      simp only [hm]
      refine (int_follows hr hl).andThen fun n => (int_follows hr hrt).andThen fun k => ?_
      exact (ofExcept_follows hs _).andThen fun _ => pure_follows rfl
    | comparison f =>
      simp only [hm]
      refine (int_follows hr hl).andThen fun n => (int_follows hr hrt).andThen fun k => ?_
      exact pure_follows rfl
    | logical f =>
      simp only [hm]
      refine (bool_follows hr hl).andThen fun p => (bool_follows hr hrt).andThen fun q => ?_
      exact pure_follows rfl

theorem reference_follows (hx : c.vars x y) (hs : c.spans span span') :
    c.Follows w Eq (referenceValue x span) (referenceValue y span') := by
  apply (value_follows hx).andThen
  intro v
  cases v with
  | some n => exact pure_follows rfl
  | none => exact error_follows (.unset hx) hs

theorem bindParams_follow (hw : c.declares w) {xs ys : List String} (h : List.Forall₂ c.vars xs ys)
    (ns : List Int) : c.Follows w Eq (bindParams xs ns) (bindParams ys ns) := by
  induction h generalizing ns with
  | nil => exact pure_follows rfl
  | cons hxy _ ih =>
    cases ns with
    | nil => exact pure_follows rfl
    | cons n ns =>
      exact (declare_follows hw hxy).andThen fun _ => (set_follows hxy n).andThen fun _ => ih ns

theorem apply_follows (hr : c.Respects first second) {f g : Function} (h : c.functions f g)
    (ns : List Int) : c.Follows w Eq (applyWith first f ns) (applyWith second g ns) := by
  have hbody : c.Follows (c.inside w) Eq (do bindParams f.params ns; first f.body)
      (do bindParams g.params ns; second g.body) :=
    (bindParams_follow (c.declares_inside w) (c.params_rel h) ns).andThen fun _ =>
      hr _ _ _ (c.body_rel w h)
  exact (inFrame_follows hbody).andThen fun _ => pure_follows rfl

theorem call_follows (hr : c.Respects first second) (hx : c.funs x y)
    (h : List.Forall₂ (c.tree w) as bs) (hs : c.spans span span') :
    c.Follows w Eq (callWith first x as span) (callWith second y bs span') := by
  refine (ints_follow hr h).andThen fun ns => (function_follows hx).bind fun f g hfg => ?_
  cases hfg with
  | some hfg =>
    dsimp only
    rw [(c.params_rel hfg).length_eq]
    split
    · exact apply_follows hr hfg ns
    · exact error_follows (.arity hx _ _) hs
  | none =>
    apply (callBuiltin_follows hx ns).andThen
    intro printed
    cases printed with
    | true => exact pure_follows rfl
    | false => exact error_follows (.unknownFunction hx) hs

/-- Two nodes of one kind whose parts correspond. -/
inductive Matched (c : Correspondence World) (w : World) : Ast → Ast → Prop
  | program {as bs : List Ast} {span span' : Option Span} (h : List.Forall₂ (c.tree w) as bs) :
      Matched c w (.program as span) (.program bs span')
  | block {as bs : List Ast} {span span' : Option Span} (h : List.Forall₂ (c.tree w) as bs) :
      Matched c w (.block as span) (.block bs span')
  | braced {as bs : List Ast} {span span' : Option Span}
      (h : List.Forall₂ (c.tree (c.inside w)) as bs) :
      Matched c w (.braced as span) (.braced bs span')
  | function {x y : String} {params params' : List String} {a b : Ast} {span span' : Option Span}
      (hw : c.declares w) (name : c.funs x y) (h : c.functions ⟨params, a⟩ ⟨params', b⟩)
      (hs : c.spans span span') :
      Matched c w (.function x params a span) (.function y params' b span')
  | declaration {x y : String} {i j : Option Ast} {span span' : Option Span} (hw : c.declares w)
      (name : c.vars x y) (h : Option.Rel (c.tree w) i j) (hs : c.spans span span') :
      Matched c w (.declaration x i span) (.declaration y j span')
  | assignment {x y : String} {a b : Ast} {span span' : Option Span} (name : c.vars x y)
      (h : c.tree w a b) (hs : c.spans span span') :
      Matched c w (.assignment x a span) (.assignment y b span')
  | branch {a b : Ast} {p q i j : Option Ast} {span span' : Option Span} (h : c.tree w a b)
      (hp : Option.Rel (c.tree w) p q) (hn : Option.Rel (c.tree w) i j) :
      Matched c w (.branch a p i span) (.branch b q j span')
  | loop {a b body body' : Ast} {span span' : Option Span} (h : c.tree w a b)
      (hb : c.tree w body body') : Matched c w (.loop a body span) (.loop b body' span')
  | result {a b : Ast} {span span' : Option Span} (h : c.tree w a b) :
      Matched c w (.result a span) (.result b span')
  | statement {a b : Ast} {span span' : Option Span} (h : c.tree w a b) :
      Matched c w (.statement a span) (.statement b span')
  | operation {a b a' b' : Ast} {op : String} {span span' : Option Span} (hl : c.tree w a b)
      (hr : c.tree w a' b') (hs : c.spans span span') :
      Matched c w (.operation a op a' span) (.operation b op b' span')
  | parens {a b : Ast} {span span' : Option Span} (h : c.tree w a b) :
      Matched c w (.parens a span) (.parens b span')
  | literal {text : String} {span span' : Option Span} (hs : c.spans span span') :
      Matched c w (.literal text span) (.literal text span')
  | reference {x y : String} {span span' : Option Span} (name : c.vars x y)
      (hs : c.spans span span') : Matched c w (.reference x span) (.reference y span')
  | call {x y : String} {as bs : List Ast} {span span' : Option Span} (name : c.funs x y)
      (h : List.Forall₂ (c.tree w) as bs) (hs : c.spans span span') :
      Matched c w (.call x as span) (.call y bs span')
  | broken {kind kind' : String} {flaw : Flaw} {span span' : Option Span} :
      Matched c w (.broken kind flaw span) (.broken kind' flaw span')
  | hole {flaw : Flaw} : Matched c w (.hole flaw) (.hole flaw)

/-- Nodes that match run alike if the nodes inside them do. -/
theorem node_follows (hr : c.Respects first second) {limit limit' : Nat} (hle : limit ≤ limit')
    (hlate : c.late ∨ limit = limit') (h : c.Matched w a b) :
    c.Follows w Eq (nodeWith first limit a) (nodeWith second limit' b) := by
  cases h with
  | program h => exact program_follows hr h
  | block h => exact statements_follow hr h
  | braced h => exact inFrame_follows (first_follows hr h)
  | function hw name h hs => exact functionStatement_follows hw name h hs
  | declaration hw name h hs => exact declaration_follows hr hw name h hs
  | assignment name h hs => exact assignment_follows hr name h hs
  | branch h hp hn => exact branch_follows hr h hp hn
  | loop h hb => exact loop_follows hr h hb hle hlate
  | result h => exact result_follows hr h
  | statement h => exact statement_follows hr h
  | operation hl hrt hs => exact operation_follows hr hl _ hrt hs
  | parens h => exact hr _ _ _ h
  | literal hs => exact (ofExcept_follows hs _).andThen fun _ => pure_follows rfl
  | reference name hs => exact reference_follows name hs
  | call name h hs => exact call_follows hr name h hs
  | broken | hole => exact fault_follows _

end Nodes

/-- Evaluation in one more step each, of nodes that match. -/
theorem eval_follows {n m : Nat} (hr : c.Respects (eval n) (eval m)) (hle : n ≤ m)
    (hlate : c.late ∨ n = m) {a b : Ast} (h : c.Matched w a b) :
    c.Follows w Eq (eval (n + 1) a) (eval (m + 1) b) :=
  ((node_follows hr hle hlate h).visitSecond b).visitFirst a

/-- Where nodes that correspond always match, their evaluations run alike, in as many steps or,
where the second one may be late, in more. The induction is on the steps, for the body of a function
is no part of the call. -/
theorem eval_respects (h : ∀ w a b, c.tree w a b → c.Matched w a b) {n m : Nat} (hle : n ≤ m)
    (hlate : c.late ∨ n = m) : c.Respects (eval n) (eval m) := by
  induction n generalizing m with
  | zero =>
    intro w a b _ s t _
    rcases hlate with hlate | rfl
    · exact .late hlate _
    · exact .unfinished
  | succ n ih =>
    cases m with
    | zero => omega
    | succ m =>
      have hle' := Nat.le_of_succ_le_succ hle
      have hlate' := hlate.imp_right Nat.succ.inj
      exact fun w a b hab => eval_follows (ih hle' hlate') hle' hlate' (h w a b hab)

/-- Programs whose children correspond run alike from initial states, traced or not. -/
theorem evaluate_tied {n m : Nat} (hr : c.Respects (eval n) (eval m)) {tracing tracing' : Bool}
    (hs : c.state w (.initial tracing) (.initial tracing')) (tree tree' : Ast)
    (h : List.Forall₂ (c.tree w) tree.children tree'.children) :
    (evaluate n tracing tree).Tied c.late Eq c.stop (c.state w) (evaluate m tracing' tree') := by
  have hrun := program_follows hr h _ _ hs
  unfold evaluate evalProgram
  generalize programWith (eval n) tree.children (.initial tracing) = o at hrun ⊢
  generalize programWith (eval m) tree'.children (.initial tracing') = p at hrun ⊢
  cases hrun with
  | done answer state => exact .done (congrArg returnedOrZero answer) state
  | stopped stop state => exact .stopped stop state
  | unfinished => exact .unfinished
  | late h _ => exact .late h _

end Correspondence

end Bronti
