import Bronti.Proofs.FrameDiscipline

/-!
How a return leaves the nodes around it. It passes through blocks, braces, branches and loops, and
nothing is evaluated on the way out but the frames are closed; the next call ends with its value,
and else the program does.
-/
namespace Bronti

open Run Eval

/-- The state with a number of its innermost frames closed; there are to be others under them. -/
def State.closed? (s : State) : Nat → Option State
  | 0 => some s
  | k + 1 => (s.closed? k).bind State.close?

theorem State.closed?_succ {s t u : State} {k : Nat} (ht : s.closed? k = some t)
    (hu : t.close? = some u) : s.closed? (k + 1) = some u := by
  simp [closed?, ht, hu]

theorem State.visits_close {s t : State} (h : s.close? = some t) : t.visits = s.visits := by
  unfold close? at h
  split at h
  · cases h
  · cases h
    rfl

theorem State.visits_closed {s t : State} {k : Nat} (h : s.closed? k = some t) :
    t.visits = s.visits := by
  induction k generalizing t with
  | zero =>
    cases h
    rfl
  | succ k ih =>
    obtain ⟨u, hu, ht⟩ := Option.bind_eq_some_iff.mp h
    rw [visits_close ht, ih hu]

/-- A node that is to be evaluated in a state, with the steps that are left. -/
structure Point where
  steps : Nat
  node : Ast
  state : State

def Point.run (p : Point) : Outcome Result := eval p.steps p.node p.state

/-- Whole rounds of a loop, none of which returns: from a state with some rounds to go to a state
with fewer of them to go. -/
inductive Rounds (rec : Ast → Run Result) (condition body : Ast) : Nat → State → Nat → State → Prop
  | none {limit : Nat} {s : State} : Rounds rec condition body limit s limit s
  | more {limit left : Nat} {s t u v : State} {r : Result}
      (again : boolWith rec condition s = .done true t) (round : rec body t = .done r u)
      (stays : ∀ n, r ≠ .returned n) (rest : Rounds rec condition body limit u left v) :
      Rounds rec condition body (limit + 1) s left v

/-- The evaluation comes to a point inside blocks, braces, branches and loops. The number counts the
frames that the braces on the way have opened. -/
inductive Reaches (goal : Point) : Point → Nat → Prop
  | here : Reaches goal goal 0
  | block {steps opened : Nat} (before : List Ast) {after : List Ast} {a : Ast} {span : Option Span}
      {s t : State}
      (passed : statementsWith (eval steps) before (s.visit (.block (before ++ a :: after) span)) =
        .done .nothing t)
      (inside : Reaches goal ⟨steps, a, t⟩ opened) :
      Reaches goal ⟨steps + 1, .block (before ++ a :: after) span, s⟩ opened
  | braced {steps opened : Nat} {a : Ast} {rest : List Ast} {span : Option Span} {s : State}
      (inside : Reaches goal ⟨steps, a, (s.visit (.braced (a :: rest) span)).opened⟩ opened) :
      Reaches goal ⟨steps + 1, .braced (a :: rest) span, s⟩ (opened + 1)
  | branch {steps opened : Nat} {condition a : Ast} {positive negative : Option Ast}
      {span : Option Span} {b : Bool} {s t : State}
      (decided : boolWith (eval steps) condition
        (s.visit (.branch condition positive negative span)) = .done b t)
      (taken : (if b then positive else negative) = some a)
      (inside : Reaches goal ⟨steps, a, t⟩ opened) :
      Reaches goal ⟨steps + 1, .branch condition positive negative span, s⟩ opened
  | loop {steps opened left : Nat} {condition body : Ast} {span : Option Span} {s t u : State}
      (rounds : Rounds (eval steps) condition body steps (s.visit (.loop condition body span))
        (left + 1) t)
      (again : boolWith (eval steps) condition t = .done true u)
      (inside : Reaches goal ⟨steps, body, u⟩ opened) :
      Reaches goal ⟨steps + 1, .loop condition body span, s⟩ opened

/-- A call comes to the body of a function, with its parameters set in a frame of its own. -/
inductive Calls : Point → Point → Prop
  | mk {steps : Nat} {name : String} {args : List Ast} {span : Option Span} (f : Function)
      {ns : List Int} {s t u : State}
      (given : intsWith (eval steps) args (s.visit (.call name args span)) = .done ns t)
      (found : Chain.function? t.frames name = some f) (length : f.params.length = ns.length)
      (bound : bindParams f.params ns t.opened = .done () u) :
      Calls ⟨steps + 1, .call name args span, s⟩ ⟨steps, f.body, u⟩

section Steps

variable {α β : Type} {rec : Ast → Run Result} {a : Ast} {s t u : State} {n : Int}

theorem bind_of_done {m : Run α} {f : α → Run β} {x : α} (h : m s = .done x t) :
    (m >>= f) s = f x t := by
  change Run.bind m f s = f x t
  rw [Run.bind, h]

theorem attempt_done {f : State → Option State} (h : f s = some t) :
    attempt f s = .done true t := by
  simp only [attempt, h]

theorem some_of_attempt {f : State → Option State} (h : attempt f s = .done true t) :
    f s = some t := by
  unfold attempt at h
  split at h
  · next u hu =>
    cases h
    exact hu
  · cases h

theorem done_of_bind {m : Run α} {f : α → Run β} {y : β} (h : (m >>= f) s = .done y u) :
    ∃ x t, m s = .done x t ∧ f x t = .done y u := by
  change Run.bind m f s = .done y u at h
  unfold Run.bind at h
  split at h
  · next x t hm => exact ⟨x, t, hm, h⟩
  · cases h
  · cases h

theorem inFrame_of_done {m : Run α} {x : α} (h : m s.opened = .done x t)
    (hclose : t.close? = some u) : inFrame m s = .done x u := by
  simp only [inFrame, h, closing, hclose]

/-- Statements that were passed without a return are followed by the others. -/
theorem statements_append {before : List Ast} (as : List Ast)
    (h : statementsWith rec before s = .done .nothing t) :
    statementsWith rec (before ++ as) s = statementsWith rec as t := by
  induction before generalizing s with
  | nil =>
    cases h
    rfl
  | cons b before ih =>
    obtain ⟨r, u, hr, hrest⟩ := done_of_bind h
    rw [List.cons_append, statementsWith, bind_of_done hr]
    cases r with
    | returned k => cases hrest
    | nothing | int _ | bool _ => exact ih hrest

/-- A statement that never ends but with a return is the last one. -/
theorem statements_returning (after : List Ast)
    (h : ∀ r t, rec a s = .done r t → ∃ n, r = .returned n) :
    statementsWith rec (a :: after) s = rec a s := by
  change Run.bind (rec a) _ s = rec a s
  unfold Run.bind
  cases hr : rec a s with
  | done r t =>
    obtain ⟨n, rfl⟩ := h r t hr
    rfl
  | stopped e t => rfl
  | unfinished => rfl

theorem statements_returned (after : List Ast) (h : rec a s = .done (.returned n) t) :
    statementsWith rec (a :: after) s = .done (.returned n) t := by
  rw [statements_returning after (by simp [h]), h]

theorem loop_rounds {condition body : Ast} {limit left : Nat}
    (h : Rounds rec condition body limit s left t) :
    loopWith rec condition body limit s = loopWith rec condition body left t := by
  induction h with
  | none => rfl
  | @more limit left s t u v r again round stays rest ih =>
    rw [loopWith, bind_of_done again, if_pos rfl, bind_of_done round, ← ih]
    cases r with
    | returned k => exact absurd rfl (stays k)
    | nothing | int _ | bool _ => rfl

/-- A body that returns ends the loop, and its condition is not evaluated again. -/
theorem loop_returned {condition body : Ast} (limit : Nat)
    (hc : boolWith rec condition s = .done true t) (hb : rec body t = .done (.returned n) u) :
    loopWith rec condition body (limit + 1) s = .done (.returned n) u := by
  rw [loopWith, bind_of_done hc, if_pos rfl, bind_of_done hb]
  rfl

end Steps

variable {goal p q : Point} {n : Int} {s t : State} {k : Nat}

/-- A run in a frame of its own leaves this frame to be closed. -/
theorem Growing.close {α : Type} {m : Run α} {x : α} (hm : Growing m)
    (h : m s.opened = .done x t) : ∃ u, t.close? = some u := by
  have hends := hm s.opened
  rw [h] at hends
  obtain ⟨u, hu, _⟩ := State.Grown.close hends
  exact ⟨u, hu⟩

/-- A return comes out of the nodes around it as it is, and the state is the one that it was given
in but for the frames, which are closed. -/
theorem return_passes (h : Reaches goal p k) (hgoal : goal.run = .done (.returned n) s) :
    ∃ t, s.closed? k = some t ∧ p.run = .done (.returned n) t := by
  induction h with
  | here => exact ⟨s, rfl, hgoal⟩
  | block _ passed _ ih =>
    obtain ⟨t, ht, hrun⟩ := ih
    exact ⟨t, ht, (statements_append _ passed).trans (statements_returned _ hrun)⟩
  | braced _ ih =>
    obtain ⟨t, ht, hrun⟩ := ih
    obtain ⟨u, hu⟩ := (eval_disciplined _ _).growing.close hrun
    exact ⟨u, State.closed?_succ ht hu, inFrame_of_done hrun hu⟩
  | branch decided taken _ ih =>
    obtain ⟨t, ht, hrun⟩ := ih
    refine ⟨t, ht, (bind_of_done decided).trans ?_⟩
    rw [taken]
    exact hrun
  | loop rounds again _ ih =>
    obtain ⟨t, ht, hrun⟩ := ih
    exact ⟨t, ht, (loop_rounds rounds).trans (loop_returned _ again hrun)⟩

/-- A call of a function that is found applies it to the arguments, if they are as many as the
parameters. -/
theorem call_applies {steps : Nat} {name : String} {args : List Ast} {span : Option Span}
    {f : Function} {ns : List Int}
    (given : intsWith (eval steps) args (s.visit (.call name args span)) = .done ns t)
    (found : Chain.function? t.frames name = some f) (length : f.params.length = ns.length) :
    eval (steps + 1) (.call name args span) s = applyWith (eval steps) f ns t := by
  have hfound : function? name t = .done (some f) t := congrArg (Outcome.done · t) found
  refine (bind_of_done given).trans ((bind_of_done hfound).trans ?_)
  dsimp only
  rw [if_pos length]

/-- A call ends with what the body of its function returns. -/
theorem return_ends_call (h : Calls q p) (hp : p.run = .done (.returned n) s) :
    ∃ t, s.close? = some t ∧ q.run = .done (.int n) t := by
  cases h with
  | @mk steps name _ _ f ns _ t _ given found length bound =>
    have hbody : (do bindParams f.params ns; eval steps f.body) t.opened = .done (.returned n) s :=
      (bind_of_done bound).trans hp
    have hgrowing : Growing (do bindParams f.params ns; eval steps f.body) :=
      (bindParams_growing f.params ns).bind fun _ => (eval_disciplined steps f.body).growing
    obtain ⟨v, hv⟩ := hgrowing.close hbody
    have happly : applyWith (eval steps) f ns t = .done (.int n) v :=
      (bind_of_done (inFrame_of_done hbody hv)).trans rfl
    exact ⟨v, hv, (call_applies given found length).trans happly⟩

/-- A program ends with what it returns. -/
theorem return_ends_program {steps : Nat} {tracing : Bool} {a : Ast} (rest : List Ast)
    (span : Option Span) (h : Point.run ⟨steps, a, .initial tracing⟩ = .done (.returned n) s) :
    evaluate steps tracing (.program (a :: rest) span) = .done n s := by
  have hrun : programWith (eval steps) (a :: rest) (.initial tracing) = .done (.returned n) s :=
    (bind_of_done h).trans rfl
  unfold evaluate evalProgram
  rw [Ast.children, hrun]
  rfl

end Bronti
