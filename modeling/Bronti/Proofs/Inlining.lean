import Bronti.Proofs.Decimal
import Bronti.Proofs.Returning
import Bronti.Proofs.Tracing
import Bronti.Proofs.WordRange
import Mathlib

/-!
Calls as blocks. A call does what the body of its function does in a block in braces, behind
declarations of the parameters that are initialized with the arguments: to bind a parameter and to
declare a variable with an initializer is the same.
-/
namespace Bronti

/-! ## How a node ends -/

/-- How an evaluation ends: with a result or broken off, what has been printed, and the frames. -/
structure Ending where
  result : Except Stop Result
  printed : List (List Int)
  frames : Chain

def Outcome.ending? : Outcome Result → Option Ending
  | .done r s => some ⟨.ok r, s.printed, s.frames⟩
  | .stopped e s => some ⟨.error e, s.printed, s.frames⟩
  | .unfinished => none

/-- With enough steps, the evaluation of the node from the state ends so. -/
def Ast.EndsIn (a : Ast) (s : State) (e : Ending) : Prop :=
  ∃ steps, (eval steps a s).ending? = some e

theorem State.untraced_iff {s t : State} :
    s.untraced = t.untraced ↔ s.frames = t.frames ∧ s.printed = t.printed := by
  simp only [State.untraced, State.frames, State.mk.injEq, List.cons.injEq, and_true, and_assoc]

theorem State.untraced_visit (s : State) (a : Ast) : (s.visit a).untraced = s.untraced :=
  State.untraced_iff.mpr ⟨s.frames_visit a, s.printed_visit a⟩

/-- The outcomes have answers that are tied and are the same else, but for what was traced. -/
abbrev Outcome.Same {α β : Type} (late : Prop) (good : α → β → Prop) (o : Outcome α)
    (p : Outcome β) : Prop :=
  o.Tied late good Eq (fun u v => u.untraced = v.untraced) p

open Run Eval

section Steps

variable {α β : Type} {late : Prop} {good : α → β → Prop} {s t : State} {n m : Nat}

theorem same_of_follows {f g : Run α}
    (h : ∀ depth, (Likeness.same late).correspondence.Follows depth Eq f g)
    (hst : s.untraced = t.untraced) : (f s).Same late Eq (g t) :=
  (h _ s t (Likeness.states_same.mpr ⟨rfl, hst⟩)).mono (fun _ _ h => h)
    (fun _ _ h => h.eq fun _ _ h => h) fun _ _ h => (Likeness.states_same.mp h).2

theorem eval_same (h : n ≤ m) (hlate : late ∨ n = m) (a : Ast) (hst : s.untraced = t.untraced) :
    (eval n a s).Same late Eq (eval m a t) :=
  same_of_follows (fun _ => Likeness.same_respects h hlate _ a a rfl) hst

/-- Arguments that were evaluated give the same integers in any more steps. -/
theorem ints_done {args : List Ast} {ns : List Int} {u : State} (h : n ≤ m)
    (hst : s.untraced = t.untraced) (hargs : intsWith (eval n) args s = .done ns u) :
    ∃ v, intsWith (eval m) args t = .done ns v ∧ u.untraced = v.untraced := by
  have hsame : (intsWith (eval n) args s).Same True Eq (intsWith (eval m) args t) :=
    same_of_follows (fun _ => Correspondence.ints_follow (Likeness.same_respects h (.inl trivial))
      (List.forall₂_same.mpr fun _ _ => rfl)) hst
  rw [hargs] at hsame
  generalize intsWith (eval m) args t = o at hsame ⊢
  cases hsame with
  | done answer state => exact ⟨_, by rw [answer], state⟩

/-- A node ends in any more steps as it has ended. -/
theorem ending_of_le {a : Ast} {e : Ending} (h : n ≤ m) (he : (eval n a s).ending? = some e) :
    (eval m a s).ending? = some e := by
  have hsame := eval_same h (.inl trivial) a (rfl : s.untraced = s.untraced)
  generalize eval n a s = o at hsame he
  generalize eval m a s = p at hsame
  cases hsame with
  | done answer state =>
    obtain ⟨hframes, hprinted⟩ := State.untraced_iff.mp state
    rw [← he, answer, Outcome.ending?, Outcome.ending?, hframes, hprinted]
  | stopped stop state =>
    obtain ⟨hframes, hprinted⟩ := State.untraced_iff.mp state
    rw [← he, stop, Outcome.ending?, Outcome.ending?, hframes, hprinted]
  | unfinished | late _ _ => cases he

/-- Runs in frames of their own end alike if they do so inside. -/
theorem Outcome.Same.inFrame {f : Run α} {g : Run β}
    (h : (f s.opened).Same late good (g t.opened)) :
    (inFrame f s).Same late good (inFrame g t) := by
  have hclose : ∀ {u v : State}, u.untraced = v.untraced →
      Option.Rel (fun u v => u.untraced = v.untraced) u.close? v.close? := by
    intro u v huv
    obtain ⟨inner, outer, printed, tracing, visits⟩ := u
    obtain ⟨inner', outer', printed', tracing', visits'⟩ := v
    simp only [State.untraced, State.mk.injEq, and_true] at huv
    obtain ⟨-, rfl, rfl⟩ := huv
    cases outer with
    | nil => exact .none
    | cons f fs => exact .some rfl
  unfold Run.inFrame
  generalize f s.opened = o at h ⊢
  generalize g t.opened = p at h ⊢
  cases h with
  | @done a b u v answer state =>
    have hrel := hclose state
    simp only [closing]
    generalize u.close? = u' at hrel ⊢
    generalize v.close? = v' at hrel ⊢
    cases hrel with
    | some huv => exact .done answer huv
    | none => exact .stopped rfl state
  | @stopped e f u v stop state =>
    have hrel := hclose state
    simp only [closing]
    generalize u.close? = u' at hrel ⊢
    generalize v.close? = v' at hrel ⊢
    cases hrel with
    | some huv => exact .stopped stop huv
    | none => exact .stopped rfl state
  | unfinished => exact .unfinished
  | late h _ => exact .late h _

end Steps

/-! ## Variables that are declared and set -/

/-- The frame with variables behind those that it has, each with its value. -/
def Frame.bound (f : Frame) (ps : List (String × Int)) : Frame :=
  { f with vars := f.vars ++ ps.map fun p => (p.1, some p.2) }

/-- The second state has variables more in the innermost frame, each with its value. -/
structure State.Binds (s : State) (ps : List (String × Int)) (t : State) : Prop where
  frames : t.frames = s.inner.bound ps :: s.outer
  printed : t.printed = s.printed

theorem Fresh.of_cons {used xs : List String} {x : String} (h : Fresh used (x :: xs)) :
    x ∉ used ∧ Fresh (used ++ [x]) xs := by
  obtain ⟨hx, hxs⟩ := List.nodup_cons.mp h.nodup
  refine ⟨h.unused x (by simp), hxs, fun y hy hused => ?_⟩
  rcases List.mem_append.mp hused with hused | hused
  · exact h.unused y (by simp [hy]) hused
  · exact hx (List.mem_singleton.mp hused ▸ hy)

namespace State.Binds

variable {s t u : State} {ps qs : List (String × Int)} {x : String} {n : Int}

theorem nil (h : t.frames = s.frames) (hp : t.printed = s.printed) : s.Binds [] t := by
  refine ⟨?_, hp⟩
  rw [h, Frame.bound, List.map_nil, List.append_nil]
  rfl

theorem trans (h : s.Binds ps t) (h' : t.Binds qs u) : s.Binds (ps ++ qs) u := by
  obtain ⟨hinner, houter⟩ := List.cons.inj h.frames
  refine ⟨?_, h'.printed.trans h.printed⟩
  rw [h'.frames, hinner, houter]
  simp [Frame.bound]

theorem names (h : s.Binds ps t) : names t.inner.vars = names s.inner.vars ++ ps.map Prod.fst := by
  rw [(List.cons.inj h.frames).1]
  simp [Bronti.names, Frame.bound]

end State.Binds

section Binding

variable {s t : State} {x : String} {n : Int}

theorem store_concat {vars : List (String × Option Int)} (h : x ∉ names vars) (n : Int) :
    Frame.store x n (vars ++ [(x, none)]) = vars ++ [(x, some n)] := by
  induction vars with
  | nil => simp [Frame.store]
  | cons p vars ih =>
    simp only [names, List.map_cons, List.mem_cons, not_or] at h
    rw [List.cons_append, Frame.store, if_neg (Ne.symm h.1), ih h.2, List.cons_append]

/-- A new variable is declared. -/
theorem declare_new (h : x ∉ names s.inner.vars) :
    ∃ t, declare x s = .done true t ∧ t.frames = s.inner.addVariable x :: s.outer ∧
      t.printed = s.printed := by
  have hx : s.declare? x = some { s with inner := s.inner.addVariable x } := by
    rw [State.declare?, Frame.hasVariable_of_not_mem h]
    rfl
  exact ⟨_, attempt_done hx, rfl, rfl⟩

/-- What is stored under the name of a variable that was just declared is stored in this one. -/
theorem set_new {f : Frame} {fs : Chain} (h : x ∉ names f.vars)
    (hs : s.frames = f.addVariable x :: fs) (n : Int) :
    ∃ t, set x n s = .done true t ∧ t.frames = f.bound [(x, n)] :: fs ∧ t.printed = s.printed := by
  have hframes := s.frames_set x n
  rw [hs, Chain.set?, if_pos (f.hasVariable_addVariable x)] at hframes
  obtain ⟨t, ht, hframes⟩ := Option.map_eq_some_iff.mp hframes
  refine ⟨t, attempt_done ht, ?_, State.printed_set ht⟩
  rw [hframes, Frame.setVariable, Frame.addVariable, store_concat h]
  rfl

/-- Parameters of new names are bound to the arguments. -/
theorem bindParams_binds {xs : List String} {ns : List Int} (hlen : xs.length = ns.length)
    (h : Fresh (names s.inner.vars) xs) :
    ∃ t, bindParams xs ns s = .done () t ∧ s.Binds (xs.zip ns) t := by
  induction xs generalizing ns s with
  | nil => exact ⟨s, rfl, .nil rfl rfl⟩
  | cons x xs ih =>
    cases ns with
    | nil => cases hlen
    | cons n ns =>
      obtain ⟨hx, hxs⟩ := h.of_cons
      obtain ⟨t, ht, hframes, hprinted⟩ := declare_new hx
      obtain ⟨u, hu, hframes', hprinted'⟩ := set_new hx hframes n
      have hbinds : s.Binds [(x, n)] u := ⟨hframes', hprinted'.trans hprinted⟩
      obtain ⟨v, hv, hrest⟩ := ih (Nat.succ.inj hlen) (hbinds.names ▸ hxs)
      refine ⟨v, ?_, hbinds.trans hrest⟩
      rw [bindParams, bind_of_done ht, bind_of_done hu, hv]

/-- A declaration of a variable whose initializer is the text of an integer. -/
def Ast.binding (span : Option Span) (p : String × Int) : Ast :=
  .declaration p.1 (some (.literal (toString p.2) span)) span

/-- A declaration of a new variable, initialized with the text of a word. -/
theorem eval_binding (steps : Nat) (span : Option Span) (h : x ∉ names s.inner.vars)
    (hn : Word.InRange n) :
    ∃ t, eval (steps + 2) (.binding span (x, n)) s = .done .nothing t ∧ s.Binds [(x, n)] t := by
  have hvisited := s.frames_visit (.binding span (x, n))
  obtain ⟨hinner, houter⟩ := List.cons.inj hvisited
  obtain ⟨t, ht, hframes, hprinted⟩ := declare_new (hinner ▸ h)
  have hvalue : eval (steps + 1) (.literal (toString n) span) t =
      .done (.int n) (t.visit (.literal (toString n) span)) := by
    change (ofExcept span (literalValue (toString n)) >>= fun k => pure (Result.int k)) _ = _
    rw [literalValue_toString hn]
    rfl
  have hliteral : intWith (eval (steps + 1)) (.literal (toString n) span) t =
      .done n (t.visit (.literal (toString n) span)) := (bind_of_done hvalue).trans rfl
  have hdeclared : (t.visit (.literal (toString n) span)).frames =
      s.inner.addVariable x :: s.outer := by
    rw [State.frames_visit, hframes, hinner, houter]
  obtain ⟨u, hu, hframes', hprinted'⟩ := set_new h hdeclared n
  refine ⟨u, ?_, hframes', ?_⟩
  · have hrun : eval (steps + 2) (.binding span (x, n)) s =
        declarationWith (eval (steps + 1)) x (some (.literal (toString n) span)) span
          (s.visit (.binding span (x, n))) := rfl
    rw [hrun, declarationWith, bind_of_done ht]
    exact (bind_of_done hliteral).trans ((bind_of_done hu).trans rfl)
  · rw [hprinted', State.printed_visit, hprinted, State.printed_visit]

/-- Declarations of new variables, initialized with the texts of words. -/
theorem bindings_bind (steps : Nat) (span : Option Span) {ps : List (String × Int)}
    (h : Fresh (names s.inner.vars) (ps.map Prod.fst)) (hwords : ∀ p ∈ ps, Word.InRange p.2) :
    ∃ t, statementsWith (eval (steps + 2)) (ps.map (Ast.binding span)) s = .done .nothing t ∧
      s.Binds ps t := by
  induction ps generalizing s with
  | nil => exact ⟨s, rfl, .nil rfl rfl⟩
  | cons p ps ih =>
    obtain ⟨hp, hps⟩ := List.forall_mem_cons.mp hwords
    obtain ⟨hx, hxs⟩ := h.of_cons
    obtain ⟨t, ht, hbinds⟩ := eval_binding steps span hx hp
    obtain ⟨u, hu, hrest⟩ := ih (hbinds.names ▸ hxs) hps
    refine ⟨u, ?_, hbinds.trans hrest⟩
    rw [List.map_cons, statementsWith, bind_of_done ht]
    exact hu

end Binding

/-! ## Calls -/

/-- What a call gives for the result of its body: the integer that was returned, or 0. -/
def Result.called (r : Result) : Result := .int (returnedOrZero r)

/-- How a call ends if its body ends so. -/
def Ending.called (e : Ending) : Ending := { e with result := e.result.map Result.called }

/-- A function applied to integers, as a block in braces: its parameters are declared, initialized
with the integers, and then comes its body. -/
def Function.inlined (f : Function) (ns : List Int) (span : Option Span) : Ast :=
  .braced [.block ((f.params.zip ns).map (.binding span) ++ [f.body]) span] span

theorem Chain.function?_of_kept {fs gs : Chain} (h : List.Forall₂ Frame.Kept fs gs) (x : String) :
    gs.function? x = fs.function? x := by
  induction h with
  | nil => rfl
  | cons hfg _ ih => simp only [Chain.function?, hfg.funs, ih]

section Calls

variable {f : Function} {ns : List Int} {s t : State}

/-- In a block, the last statement is worth for a call what it is worth alone. -/
theorem statements_last {rec : Ast → Run Result} {a : Ast} {o : Outcome Result}
    (h : o.Same False Eq (rec a s)) :
    o.Same False (fun r r' => r.called = r'.called) (statementsWith rec [a] s) := by
  change o.Same _ _ (Run.bind (rec a) _ s)
  unfold Run.bind
  generalize rec a s = p at h
  cases h with
  | @done r _ _ _ answer state =>
    subst answer
    cases r with
    | returned n => exact .done rfl state
    | nothing | int _ | bool _ => exact .done rfl state
  | stopped stop state => exact .stopped stop state
  | unfinished => exact .unfinished
  | late h _ => exact h.elim

/-- To apply a function is to evaluate it as a block. -/
theorem apply_same (steps : Nat) (span : Option Span) (hst : s.untraced = t.untraced)
    (hnodup : f.params.Nodup) (hlen : f.params.length = ns.length)
    (hwords : ∀ n ∈ ns, Word.InRange n) :
    (applyWith (eval (steps + 2)) f ns s).Same False (fun r r' => r = r'.called)
      (eval (steps + 4) (f.inlined ns span) t) := by
  let block : Ast := .block ((f.params.zip ns).map (.binding span) ++ [f.body]) span
  let start := ((t.visit (f.inlined ns span)).opened).visit block
  have hstart : start.untraced = s.opened.untraced := by
    obtain ⟨hframes, hprinted⟩ := State.untraced_iff.mp hst
    refine State.untraced_iff.mpr ⟨?_, ?_⟩
    · rw [State.frames_visit]
      exact congrArg (Frame.empty :: ·) ((State.frames_visit _ _).trans hframes.symm)
    · rw [State.printed_visit]
      exact (State.printed_visit _ _).trans hprinted.symm
  obtain ⟨hframes, hprinted⟩ := State.untraced_iff.mp hstart
  obtain ⟨hinner, houter⟩ := List.cons.inj hframes
  -- both bind the parameters in an empty frame, and evaluate the body behind that
  have hfresh : Fresh (names Frame.empty.vars) f.params := ⟨hnodup, by simp [names, Frame.empty]⟩
  have hparams : (f.params.zip ns).map Prod.fst = f.params := List.map_fst_zip (by omega)
  obtain ⟨u, hu, hbindsu⟩ := bindParams_binds (s := s.opened) hlen hfresh
  obtain ⟨v, hv, hbindsv⟩ := bindings_bind steps span (s := start) (by rwa [hparams, hinner])
    fun p hp => hwords p.2 (List.of_mem_zip hp).2
  have huv : u.untraced = v.untraced := by
    refine State.untraced_iff.mpr ⟨?_, ?_⟩
    · rw [hbindsu.frames, hbindsv.frames, hinner, houter]
    · rw [hbindsu.printed, hbindsv.printed, hprinted]
  have hbody := statements_last (eval_same (Nat.le_refl (steps + 2)) (.inr rfl) f.body huv)
  have hcall : (do bindParams f.params ns; eval (steps + 2) f.body) s.opened =
      eval (steps + 2) f.body u := bind_of_done hu
  have hblock : eval (steps + 3) block (t.visit (f.inlined ns span)).opened =
      statementsWith (eval (steps + 2)) [f.body] v := statements_append _ hv
  have hinside := Outcome.Same.inFrame (s := s) (t := t.visit (f.inlined ns span))
    (f := do bindParams f.params ns; eval (steps + 2) f.body) (g := eval (steps + 3) block)
    (by rwa [hcall, hblock])
  change (Run.bind _ (fun r => pure (Result.called r)) s).Same _ _
    (Run.inFrame (eval (steps + 3) block) (t.visit (f.inlined ns span)))
  unfold Run.bind
  generalize Run.inFrame _ s = o at hinside ⊢
  generalize Run.inFrame _ (t.visit (f.inlined ns span)) = p at hinside ⊢
  cases hinside with
  | done answer state => exact .done answer state
  | stopped stop state => exact .stopped stop state
  | unfinished => exact .unfinished
  | late h _ => exact h.elim

theorem ending_called {o p : Outcome Result}
    (h : o.Same False (fun r r' => r = r'.called) p) :
    o.ending? = p.ending?.map Ending.called := by
  cases h with
  | done answer state =>
    obtain ⟨hframes, hprinted⟩ := State.untraced_iff.mp state
    simp only [Outcome.ending?, hframes, hprinted, answer]
    rfl
  | stopped stop state =>
    obtain ⟨hframes, hprinted⟩ := State.untraced_iff.mp state
    simp only [Outcome.ending?, hframes, hprinted, stop]
    rfl
  | unfinished => rfl
  | late h _ => exact h.elim

end Calls

/-- A call is the body of its function inlined as a block. From a state whose variables hold words,
where the arguments evaluate to integers that are as many as the parameters, which are distinct,
the call ends if and only if the block does that declares the parameters with these integers and
then evaluates the body, from the state that the arguments leave: with the same error, or with the
integer that the block returns and else with 0, having printed the same, and in the same frames. -/
theorem call_is_block {s t : State} (hs : s.InRange) {name : String} {f : Function}
    (hfound : Chain.function? s.frames name = some f) (hnodup : f.params.Nodup) {args : List Ast}
    {ns : List Int} {steps : Nat} (hargs : intsWith (eval steps) args s = .done ns t)
    (hlen : f.params.length = ns.length) (span span' : Option Span) (e : Ending) :
    (Ast.call name args span).EndsIn s e ↔
      ∃ e', (f.inlined ns span').EndsIn t e' ∧ e = e'.called := by
  have hwords : ∀ n ∈ ns, Word.InRange n := by
    have htrees : ∀ a ∈ args, (Invariant.words s).tree a := fun _ _ => trivial
    have hkept := Invariant.ints_keep ((Invariant.words s).eval_keeps steps) htrees s ⟨hs, .refl s⟩
    exact (hkept.of_done hargs).2
  have hkept : s.Kept t := (ints_keeping (eval_disciplined steps) args s).of_done hargs
  have hsame : ∀ m, steps ≤ m → (eval (m + 3) (.call name args span) s).ending? =
      (eval (m + 4) (f.inlined ns span') t).ending?.map Ending.called := by
    intro m hm
    obtain ⟨u, hgiven, htu⟩ := ints_done (Nat.le_add_right_of_le (k := 2) hm)
      (s.untraced_visit (.call name args span)).symm hargs
    have hf : Chain.function? u.frames name = some f := by
      rw [← (State.untraced_iff.mp htu).1, Chain.function?_of_kept hkept, hfound]
    rw [call_applies hgiven hf hlen]
    exact ending_called (apply_same m span' htu.symm hnodup hlen hwords)
  constructor
  · rintro ⟨n, hn⟩
    have hmore := ending_of_le (Nat.le_add_right_of_le (k := 3) (Nat.le_max_right steps n)) hn
    rw [hsame _ (Nat.le_max_left steps n)] at hmore
    obtain ⟨e', he', rfl⟩ := Option.map_eq_some_iff.mp hmore
    exact ⟨e', ⟨_, he'⟩, rfl⟩
  · rintro ⟨e', ⟨n, hn⟩, rfl⟩
    have hmore := ending_of_le (Nat.le_add_right_of_le (k := 4) (Nat.le_max_right steps n)) hn
    refine ⟨max steps n + 3, ?_⟩
    rw [hsame _ (Nat.le_max_left steps n), hmore]
    rfl

/-- A function that takes a negative integer and sets its own parameter and a variable of its caller
on the way to a return. -/
theorem setting_callee_is_block :
    let f : Function := ⟨["x", "y"], .block
      [.assignment "x" (.operation (.reference "x" none) "-" (.reference "y" none) none) none,
        .assignment "z" (.reference "x" none) none, .result (.reference "z" none) none] none⟩
    let args : List Ast := [.reference "z" none, .literal "-7" none]
    let s : State := ⟨⟨[("z", some 5)], [("f", f)]⟩, [], [], false, []⟩
    s.InRange ∧ f.params.Nodup ∧ intsWith (eval 1) args s = .done [5, -7] s ∧
      (f.inlined [5, -7] none).EndsIn s
        ⟨.ok (.returned 12), [], [⟨[("z", some 12)], [("f", f)]⟩]⟩ ∧
      (Ast.call "f" args none).EndsIn s
        ⟨.ok (.int 12), [], [⟨[("z", some 12)], [("f", f)]⟩]⟩ := by
  intro f args s
  have hs : s.InRange := by
    intro g hg x n hn
    obtain rfl := List.mem_singleton.mp hg
    obtain ⟨-, hn⟩ := Prod.mk.inj (List.mem_singleton.mp hn)
    obtain rfl := Option.some.inj hn
    decide
  have hnodup : f.params.Nodup := by decide
  have hfound : Chain.function? s.frames "f" = some f := rfl
  have hargs : intsWith (eval 1) args s = .done [5, -7] s := rfl
  have hblock : (f.inlined [5, -7] none).EndsIn s
      ⟨.ok (.returned 12), [], [⟨[("z", some 12)], [("f", f)]⟩]⟩ := ⟨6, by cbv⟩
  have hcall := call_is_block hs hfound hnodup hargs rfl none none
    ⟨.ok (.int 12), [], [⟨[("z", some 12)], [("f", f)]⟩]⟩
  exact ⟨hs, hnodup, hargs, hblock, hcall.mpr ⟨_, hblock, rfl⟩⟩

end Bronti
