import Bronti.Proofs.Frames
import Mathlib.Logic.Function.Basic

/-!
A state as one stack for each name. The state searches its frames from the innermost outward; the
stacks keep, apart for each variable and each function, the levels at which it is declared. No
sequence of requests tells the two apart.
-/
namespace Bronti

/-- A request to a state: to open or close a frame, or about a variable or a function. -/
inductive Request
  | enter
  | leave
  | declare (x : String)
  | set (x : String) (n : Int)
  | value (x : String)
  | isDefined (x : String)
  | declareFunction (x : String) (g : Function)
  | function (x : String)

/-- The answer to a request; what is refused is to close the last frame. -/
inductive Answer
  | done
  | refused
  | truth (b : Bool)
  | value (v : Option Int)
  | function (g : Option Function)

/-- What a request is about, unless it is about frames only. -/
inductive Subject
  | var (x : String)
  | func (x : String)
deriving DecidableEq

def Request.subject? : Request → Option Subject
  | .enter | .leave => none
  | .declare x | .set x _ | .value x | .isDefined x => some (.var x)
  | .declareFunction x _ | .function x => some (.func x)

/-- The request is about frames or about the given subject. -/
def Request.concerns (k : Subject) (r : Request) : Bool := r.subject?.all (· = k)

/-! ## Requests to a state and to stacks -/

namespace State

/-- A change that was tried, and whether it was made. -/
def tried (s : State) (change : Option State) : Answer × State :=
  (.truth change.isSome, change.getD s)

def respond (s : State) : Request → Answer × State
  | .enter => (.done, s.opened)
  | .leave =>
    match s.close? with
    | some t => (.done, t)
    | none => (.refused, s)
  | .declare x => s.tried (s.declare? x)
  | .set x n => s.tried (s.set? x n)
  | .value x => (.value (Chain.value? s.frames x), s)
  | .isDefined x => (.truth (Chain.isDefined s.frames x), s)
  | .declareFunction x g => s.tried (s.declareFunction? x g)
  | .function x => (.function (Chain.function? s.frames x), s)

end State

/-- How many frames are open, and for each variable and each function the levels at which it is
declared, the innermost first, with what it holds there. -/
structure Stacks where
  level : Nat
  vars : String → List (Nat × Option Int)
  funs : String → List (Nat × Function)

namespace Stacks

/-- One frame, in which nothing is declared. -/
def fresh : Stacks := ⟨1, fun _ => [], fun _ => []⟩

/-- A stack whose topmost entry is of a level. -/
def tops {α : Type} (level : Nat) (stack : List (Nat × α)) : Bool :=
  stack.head?.any fun e => e.1 = level

/-- A stack without the entries of a level. -/
def without {α : Type} (level : Nat) (stack : List (Nat × α)) : List (Nat × α) :=
  stack.filter fun e => e.1 ≠ level

def respond (m : Stacks) : Request → Answer × Stacks
  | .enter => (.done, { m with level := m.level + 1 })
  | .leave =>
    if m.level = 1 then (.refused, m)
    else (.done, ⟨m.level - 1, fun x => without m.level (m.vars x),
      fun x => without m.level (m.funs x)⟩)
  | .declare x =>
    if tops m.level (m.vars x) then (.truth false, m)
    else (.truth true, { m with vars := Function.update m.vars x ((m.level, none) :: m.vars x) })
  | .set x n =>
    match m.vars x with
    | [] => (.truth false, m)
    | (l, _) :: rest =>
      (.truth true, { m with vars := Function.update m.vars x ((l, some n) :: rest) })
  | .value x => (.value ((m.vars x).head?.bind Prod.snd), m)
  | .isDefined x => (.truth !(m.vars x).isEmpty, m)
  | .declareFunction x g =>
    if tops m.level (m.funs x) then (.truth false, m)
    else (.truth true, { m with funs := Function.update m.funs x ((m.level, g) :: m.funs x) })
  | .function x => (.function ((m.funs x).head?.map Prod.snd), m)

end Stacks

/-- A request with its answer and the number of frames that are open then. -/
structure Exchange where
  request : Request
  answer : Answer
  depth : Nat

/-- Requests made one after another of something that responds to them and has a depth. -/
def exchanges {σ : Type} (respond : σ → Request → Answer × σ) (depth : σ → Nat) :
    σ → List Request → List Exchange
  | _, [] => []
  | s, r :: rs =>
    ⟨r, (respond s r).1, depth (respond s r).2⟩ :: exchanges respond depth (respond s r).2 rs

def State.exchanges (s : State) (rs : List Request) : List Exchange :=
  Bronti.exchanges State.respond State.depth s rs

def Stacks.exchanges (m : Stacks) (rs : List Request) : List Exchange :=
  Bronti.exchanges Stacks.respond Stacks.level m rs

/-! ## The stacks of a state -/

/-- The frames of a chain in which something is found, innermost first, each with its level and with
what is found there. -/
def Chain.stack {α : Type} (look : Frame → Option α) : Chain → List (Nat × α)
  | [] => []
  | f :: fs =>
    match look f with
    | some a => (fs.length + 1, a) :: stack look fs
    | none => stack look fs

def State.toStacks (s : State) : Stacks where
  level := s.depth
  vars x := Chain.stack (fun f => f.vars.lookup x) s.frames
  funs x := Chain.stack (fun f => f.funs.lookup x) s.frames

section Lookup

variable {x y : String}

theorem lookup_store_self {vars : List (String × Option Int)} (h : (vars.lookup x).isSome)
    (n : Int) : (Frame.store x n vars).lookup x = some (some n) := by
  induction vars with
  | nil => cases h
  | cons p vars ih =>
    obtain ⟨y, v⟩ := p
    simp only [Frame.store]
    by_cases hy : y = x
    · simp [hy]
    · rw [if_neg hy]
      have hne : (x == y) = false := beq_false_of_ne (Ne.symm hy)
      simp only [List.lookup_cons, hne] at h ⊢
      exact ih h

theorem lookup_store_ne (hy : y ≠ x) (n : Int) (vars : List (String × Option Int)) :
    (Frame.store x n vars).lookup y = vars.lookup y := by
  induction vars with
  | nil => rfl
  | cons p vars ih =>
    obtain ⟨z, v⟩ := p
    simp only [Frame.store]
    by_cases hz : z = x
    · have hne : (y == z) = false := beq_false_of_ne (hz ▸ hy)
      simp [hz, List.lookup_cons, hz ▸ hne]
    · rw [if_neg hz]
      simp only [List.lookup_cons, ih]

theorem lookup_concat_self {α : Type} {bindings : List (String × α)}
    (h : bindings.lookup x = none) (a : α) : (bindings ++ [(x, a)]).lookup x = some a := by
  simp [List.lookup_append, h]

theorem lookup_concat_ne {α : Type} (hy : y ≠ x) (bindings : List (String × α)) (a : α) :
    (bindings ++ [(x, a)]).lookup y = bindings.lookup y := by
  have hne : (y == x) = false := beq_false_of_ne hy
  simp [List.lookup_append, List.lookup_cons, hne]

end Lookup

namespace Chain

section Stack

variable {α : Type} {look look' : Frame → Option α} {f : Frame} {fs : Chain}

theorem level_le_of_mem_stack {e : Nat × α} (h : e ∈ stack look fs) : e.1 ≤ fs.length := by
  induction fs with
  | nil => cases h
  | cons f fs ih =>
    simp only [stack] at h
    split at h
    · rcases List.mem_cons.mp h with rfl | h
      · exact Nat.le_refl _
      · exact Nat.le_succ_of_le (ih h)
    · exact Nat.le_succ_of_le (ih h)

/-- Without the entries of the innermost frame, the stack is that of the frames outside it. -/
theorem stack_without : Stacks.without (fs.length + 1) (stack look (f :: fs)) = stack look fs := by
  have hkeep : Stacks.without (fs.length + 1) (stack look fs) = stack look fs := by
    apply List.filter_eq_self.mpr
    intro e he
    have := level_le_of_mem_stack he
    simp
    omega
  simp only [stack]
  split
  · simpa [Stacks.without] using hkeep
  · exact hkeep

theorem stack_tops : Stacks.tops (fs.length + 1) (stack look (f :: fs)) = (look f).isSome := by
  simp only [stack]
  split
  · next h => simp [Stacks.tops, h]
  · next h =>
    cases hs : stack look fs with
    | nil => simp [Stacks.tops, h]
    | cons e rest =>
      have hmem : e ∈ stack look fs := by rw [hs]; simp
      have := level_le_of_mem_stack hmem
      simp [Stacks.tops, h]
      omega

theorem stack_cons_congr {g : Frame} (h : look g = look f) :
    stack look (g :: fs) = stack look (f :: fs) := by
  simp only [stack, h]

theorem stack_of_look {a : α} (h : look f = some a) :
    stack look (f :: fs) = (fs.length + 1, a) :: stack look fs := by
  simp only [stack, h]

theorem stack_of_look_none (h : look f = none) : stack look (f :: fs) = stack look fs := by
  simp only [stack, h]

end Stack

theorem value?_eq (fs : Chain) (x : String) :
    value? fs x = (stack (fun f => f.vars.lookup x) fs).head?.bind Prod.snd := by
  induction fs with
  | nil => rfl
  | cons f fs ih =>
    simp only [value?]
    split
    · next v hv => simp [stack, hv]
    · next hv => simp [stack, hv, ih]

theorem isDefined_eq (fs : Chain) (x : String) :
    isDefined fs x = !(stack (fun f => f.vars.lookup x) fs).isEmpty := by
  induction fs with
  | nil => rfl
  | cons f fs ih =>
    simp only [isDefined_cons, ih, Frame.hasVariable, stack]
    split <;> simp [*]

theorem function?_eq (fs : Chain) (x : String) :
    function? fs x = (stack (fun f => f.funs.lookup x) fs).head?.map Prod.snd := by
  induction fs with
  | nil => rfl
  | cons f fs ih =>
    simp only [function?]
    split
    · next g hg => simp [stack, hg]
    · next hg => simp [stack, hg, ih]

theorem set?_eq_none {x : String} {n : Int} {fs : Chain} :
    set? x n fs = none ↔ stack (fun f => f.vars.lookup x) fs = [] := by
  rw [← Option.isNone_iff_eq_none, ← Option.not_isSome, set?_isSome, isDefined_eq]
  simp

/-- A value that is stored is that of the topmost entry, and all other entries stay. -/
theorem stack_set {x : String} {n : Int} {fs gs : Chain} (h : set? x n fs = some gs) :
    gs.length = fs.length ∧
      (∃ l v rest, stack (fun f => f.vars.lookup x) fs = (l, v) :: rest ∧
        stack (fun f => f.vars.lookup x) gs = (l, some n) :: rest) ∧
      (∀ y, y ≠ x →
        stack (fun f => f.vars.lookup y) gs = stack (fun f => f.vars.lookup y) fs) ∧
      ∀ y, stack (fun f => f.funs.lookup y) gs = stack (fun f => f.funs.lookup y) fs := by
  induction fs generalizing gs with
  | nil => cases h
  | cons f fs ih =>
    simp only [set?] at h
    split at h
    · next hx =>
      cases h
      obtain ⟨v, hv⟩ := Option.isSome_iff_exists.mp hx
      have hstored : (f.setVariable x n).vars.lookup x = some (some n) := lookup_store_self hx n
      refine ⟨rfl, ⟨fs.length + 1, v, _, stack_of_look hv, stack_of_look hstored⟩, ?_, ?_⟩
      · exact fun y hy => stack_cons_congr (lookup_store_ne hy n f.vars)
      · exact fun y => stack_cons_congr rfl
    · next hx =>
      obtain ⟨gs, hgs, rfl⟩ := Option.map_eq_some_iff.mp h
      obtain ⟨hlen, ⟨l, v, rest, hfs, hgs'⟩, hvars, hfuns⟩ := ih hgs
      have hnone : f.vars.lookup x = none := Option.not_isSome_iff_eq_none.mp hx
      refine ⟨by simp [hlen], ⟨l, v, rest, ?_, ?_⟩, fun y hy => ?_, fun y => ?_⟩
      · rw [stack_of_look_none hnone, hfs]
      · rw [stack_of_look_none hnone, hgs']
      · simp only [stack, hlen, hvars y hy]
      · simp only [stack, hlen, hfuns y]

end Chain

/-! ## One request -/

namespace State

theorem depth_ne_one {s : State} {f : Frame} {fs : Chain} (h : s.outer = f :: fs) :
    s.depth ≠ 1 := by
  simp [depth, frames, h]

theorem stacks_eq {s : State} {level : Nat} {vars : String → List (Nat × Option Int)}
    {funs : String → List (Nat × Function)} (hlevel : s.depth = level)
    (hvars : ∀ x, Chain.stack (fun f => f.vars.lookup x) s.frames = vars x)
    (hfuns : ∀ x, Chain.stack (fun f => f.funs.lookup x) s.frames = funs x) :
    s.toStacks = ⟨level, vars, funs⟩ := by
  simp only [toStacks, hlevel, hvars, hfuns]

variable (s : State)

theorem stacks_level : s.toStacks.level = s.outer.length + 1 := rfl

theorem stacks_vars (x : String) :
    s.toStacks.vars x = Chain.stack (fun f => f.vars.lookup x) (s.inner :: s.outer) := rfl

theorem stacks_funs (x : String) :
    s.toStacks.funs x = Chain.stack (fun f => f.funs.lookup x) (s.inner :: s.outer) := rfl

theorem stacks_opened : s.opened.toStacks = { s.toStacks with level := s.toStacks.level + 1 } := by
  refine stacks_eq ?_ (fun x => ?_) fun x => ?_
  · simp [opened, depth, frames, toStacks]
  · exact Chain.stack_of_look_none rfl
  · exact Chain.stack_of_look_none rfl

theorem respond_leave_stacks :
    s.toStacks.respond .leave = ((s.respond .leave).1, (s.respond .leave).2.toStacks) := by
  cases hs : s.outer with
  | nil =>
    have hlevel : s.toStacks.level = 1 := by simp [toStacks, depth, frames, hs]
    simp [respond, Stacks.respond, close?, hs, hlevel]
  | cons f fs =>
    have hlevel : s.toStacks.level ≠ 1 := depth_ne_one hs
    have hframes : s.frames = s.inner :: f :: fs := by simp [frames, hs]
    have hdepth : s.depth = (f :: fs).length + 1 := by simp [depth, hframes]
    simp only [respond, Stacks.respond, close?_of_outer hs, if_neg hlevel, Prod.mk.injEq, true_and]
    symm
    refine stacks_eq ?_ (fun x => ?_) fun x => ?_
    · simp [toStacks, depth, frames, hs]
    · simp only [toStacks, hdepth, hframes, Chain.stack_without]
      rfl
    · simp only [toStacks, hdepth, hframes, Chain.stack_without]
      rfl

theorem respond_declare_stacks (x : String) :
    s.toStacks.respond (.declare x) =
      ((s.respond (.declare x)).1, (s.respond (.declare x)).2.toStacks) := by
  have htops : Stacks.tops s.toStacks.level (s.toStacks.vars x) = s.inner.hasVariable x := by
    rw [stacks_level, stacks_vars, Chain.stack_tops]
    rfl
  simp only [respond, Stacks.respond, htops, declare?]
  split
  · rfl
  · next hx =>
    simp only [tried, Option.isSome_some, Option.getD_some, Prod.mk.injEq, true_and]
    have hnone : s.inner.vars.lookup x = none := Option.not_isSome_iff_eq_none.mp hx
    symm
    refine stacks_eq rfl (fun y => ?_) fun y => ?_
    · simp only [Function.update_apply]
      split
      · next hy =>
        subst hy
        have hadded : (s.inner.addVariable y).vars.lookup y = some none :=
          lookup_concat_self hnone none
        rw [stacks_level, stacks_vars, Chain.stack_of_look_none hnone]
        exact Chain.stack_of_look hadded
      · next hy => exact Chain.stack_cons_congr (lookup_concat_ne hy _ none)
    · exact Chain.stack_cons_congr rfl

theorem respond_declareFunction_stacks (x : String) (g : Function) :
    s.toStacks.respond (.declareFunction x g) =
      ((s.respond (.declareFunction x g)).1, (s.respond (.declareFunction x g)).2.toStacks) := by
  have htops : Stacks.tops s.toStacks.level (s.toStacks.funs x) = s.inner.hasFunction x := by
    rw [stacks_level, stacks_funs, Chain.stack_tops]
    rfl
  simp only [respond, Stacks.respond, htops, declareFunction?]
  split
  · rfl
  · next hx =>
    simp only [tried, Option.isSome_some, Option.getD_some, Prod.mk.injEq, true_and]
    have hnone : s.inner.funs.lookup x = none := Option.not_isSome_iff_eq_none.mp hx
    symm
    refine stacks_eq rfl (fun y => ?_) fun y => ?_
    · exact Chain.stack_cons_congr rfl
    · simp only [Function.update_apply]
      split
      · next hy =>
        subst hy
        have hadded : (s.inner.addFunction y g).funs.lookup y = some g := lookup_concat_self hnone g
        rw [stacks_level, stacks_funs, Chain.stack_of_look_none hnone]
        exact Chain.stack_of_look hadded
      · next hy => exact Chain.stack_cons_congr (lookup_concat_ne hy _ g)

theorem respond_set_stacks (x : String) (n : Int) :
    s.toStacks.respond (.set x n) =
      ((s.respond (.set x n)).1, (s.respond (.set x n)).2.toStacks) := by
  have hframes := s.frames_set x n
  cases ht : s.set? x n with
  | none =>
    rw [ht, Option.map_none] at hframes
    have hnil : s.toStacks.vars x = [] := Chain.set?_eq_none.mp hframes.symm
    simp [respond, Stacks.respond, hnil, tried, ht]
  | some t =>
    rw [ht, Option.map_some] at hframes
    obtain ⟨hlength, ⟨l, v, rest, hs, ht'⟩, hvars, hfuns⟩ := Chain.stack_set hframes.symm
    have htop : s.toStacks.vars x = (l, v) :: rest := hs
    simp only [respond, Stacks.respond, htop, tried, ht, Option.isSome_some, Option.getD_some,
      Prod.mk.injEq, true_and]
    have hdepth : t.depth = s.toStacks.level := hlength
    symm
    refine stacks_eq hdepth (fun y => ?_) hfuns
    simp only [Function.update_apply]
    split
    · next hy => rw [hy, ht']
    · next hy => exact hvars y hy

/-- A state and its stacks answer alike, and stay a state and its stacks. -/
theorem respond_stacks (r : Request) :
    s.toStacks.respond r = ((s.respond r).1, (s.respond r).2.toStacks) := by
  cases r with
  | enter => simp only [Stacks.respond, respond, stacks_opened]
  | leave => exact s.respond_leave_stacks
  | declare x => exact s.respond_declare_stacks x
  | set x n => exact s.respond_set_stacks x n
  | value x => simp only [Stacks.respond, respond, Chain.value?_eq, toStacks]
  | isDefined x => simp only [Stacks.respond, respond, Chain.isDefined_eq, toStacks]
  | declareFunction x g => exact s.respond_declareFunction_stacks x g
  | function x => simp only [Stacks.respond, respond, Chain.function?_eq, toStacks]

theorem exchanges_stacks (rs : List Request) : s.exchanges rs = s.toStacks.exchanges rs := by
  induction rs generalizing s with
  | nil => rfl
  | cons r rs ih =>
    have hstep := s.respond_stacks r
    have hrest := ih (s.respond r).2
    simp only [exchanges, Stacks.exchanges, Bronti.exchanges] at hrest ⊢
    rw [hstep, hrest]
    rfl

theorem stacks_initial (tracing : Bool) : (initial tracing).toStacks = .fresh := rfl

end State

end Bronti
