import Bronti.Proofs.Stacks

/-!
What the stacks say of a state: requests about different names do not meet, and a frame that is
closed reveals what was last assigned to the variables that it shadowed.
-/
namespace Bronti

/-! ## One subject apart from the others -/

namespace Stacks

/-- Two families of stacks of one level that keep the same of a subject. -/
structure Agree (k : Subject) (m m' : Stacks) : Prop where
  level : m.level = m'.level
  vars : ∀ x, k = .var x → m.vars x = m'.vars x
  funs : ∀ x, k = .func x → m.funs x = m'.funs x

variable {k : Subject} {m m' : Stacks}

theorem Agree.refl (k : Subject) (m : Stacks) : Agree k m m := ⟨rfl, fun _ _ => rfl, fun _ _ => rfl⟩

/-- What is asked about frames or about the subject is answered alike. -/
theorem Agree.respond (h : Agree k m m') {r : Request} (hr : r.concerns k) :
    (m.respond r).1 = (m'.respond r).1 ∧ Agree k (m.respond r).2 (m'.respond r).2 := by
  obtain ⟨hlevel, hvars, hfuns⟩ := h
  cases r with
  | enter => exact ⟨rfl, congrArg (· + 1) hlevel, hvars, hfuns⟩
  | leave =>
    simp only [Stacks.respond, hlevel]
    split
    · exact ⟨rfl, hlevel, hvars, hfuns⟩
    · exact ⟨rfl, rfl, fun x hx => congrArg _ (hvars x hx), fun x hx => congrArg _ (hfuns x hx)⟩
  | declare x =>
    have hk : k = .var x := (of_decide_eq_true hr).symm
    simp only [Stacks.respond, hlevel, hvars x hk]
    split
    · exact ⟨rfl, hlevel, hvars, hfuns⟩
    · refine ⟨rfl, rfl, fun y hy => ?_, hfuns⟩
      simp only [Function.update_apply, hvars y hy]
  | set x n =>
    have hk : k = .var x := (of_decide_eq_true hr).symm
    simp only [Stacks.respond, hvars x hk]
    split
    · exact ⟨rfl, hlevel, hvars, hfuns⟩
    · refine ⟨rfl, hlevel, fun y hy => ?_, hfuns⟩
      simp only [Function.update_apply, hvars y hy]
  | value x =>
    have hk : k = .var x := (of_decide_eq_true hr).symm
    exact ⟨by simp only [Stacks.respond, hvars x hk], hlevel, hvars, hfuns⟩
  | isDefined x =>
    have hk : k = .var x := (of_decide_eq_true hr).symm
    exact ⟨by simp only [Stacks.respond, hvars x hk], hlevel, hvars, hfuns⟩
  | declareFunction x g =>
    have hk : k = .func x := (of_decide_eq_true hr).symm
    simp only [Stacks.respond, hlevel, hfuns x hk]
    split
    · exact ⟨rfl, hlevel, hvars, hfuns⟩
    · refine ⟨rfl, rfl, hvars, fun y hy => ?_⟩
      simp only [Function.update_apply, hfuns y hy]
  | function x =>
    have hk : k = .func x := (of_decide_eq_true hr).symm
    exact ⟨by simp only [Stacks.respond, hfuns x hk], hlevel, hvars, hfuns⟩

/-- What is done about other subjects leaves what is kept of the subject. -/
theorem agree_respond (m : Stacks) {r : Request} (hr : r.concerns k = false) :
    Agree k (m.respond r).2 m := by
  cases r with
  | enter | leave => cases hr
  | declare x =>
    have hk : ∀ y, k = .var y → y ≠ x := by
      rintro y rfl rfl
      exact of_decide_eq_false hr rfl
    simp only [Stacks.respond]
    split
    · exact .refl k m
    · exact ⟨rfl, fun y hy => Function.update_of_ne (hk y hy) _ _, fun _ _ => rfl⟩
  | set x n =>
    have hk : ∀ y, k = .var y → y ≠ x := by
      rintro y rfl rfl
      exact of_decide_eq_false hr rfl
    simp only [Stacks.respond]
    split
    · exact .refl k m
    · exact ⟨rfl, fun y hy => Function.update_of_ne (hk y hy) _ _, fun _ _ => rfl⟩
  | declareFunction x g =>
    have hk : ∀ y, k = .func y → y ≠ x := by
      rintro y rfl rfl
      exact of_decide_eq_false hr rfl
    simp only [Stacks.respond]
    split
    · exact .refl k m
    · exact ⟨rfl, fun _ _ => rfl, fun y hy => Function.update_of_ne (hk y hy) _ _⟩
  | value | isDefined | function => exact .refl k m

theorem Agree.symm (h : Agree k m m') : Agree k m' m :=
  ⟨h.level.symm, fun x hx => (h.vars x hx).symm, fun x hx => (h.funs x hx).symm⟩

theorem Agree.trans {m'' : Stacks} (h : Agree k m m') (h' : Agree k m' m'') : Agree k m m'' :=
  ⟨h.level.trans h'.level, fun x hx => (h.vars x hx).trans (h'.vars x hx),
    fun x hx => (h.funs x hx).trans (h'.funs x hx)⟩

/-- Without the requests about other subjects, what is answered to the rest is the same. -/
theorem exchanges_filter (h : Agree k m m') (rs : List Request) :
    (m.exchanges rs).filter (fun e => e.request.concerns k) =
      m'.exchanges (rs.filter (Request.concerns k)) := by
  induction rs generalizing m m' with
  | nil => rfl
  | cons r rs ih =>
    simp only [exchanges, Bronti.exchanges, List.filter_cons] at ih ⊢
    cases hr : r.concerns k with
    | true =>
      obtain ⟨hanswer, hnext⟩ := h.respond hr
      simp only [if_true, Bronti.exchanges, hanswer, hnext.level, ih hnext]
    | false =>
      simp only [Bool.false_eq_true, if_false]
      exact ih ((agree_respond m hr).trans h)

end Stacks

/-! ## What a closed frame reveals -/

namespace State

/-- The state after requests made one after another. -/
def after (s : State) : List Request → State
  | [] => s
  | r :: rs => after (s.respond r).2 rs

/-- A variable is declared in a frame inside the outermost `d`. -/
def shadows (d : Nat) (x : String) (s : State) : Bool :=
  Chain.isDefined (s.frames.take (s.depth - d)) x

/-- What a variable of the outermost `d` frames holds after a request, if it held `v` before: an
assignment is to another variable while one of its name is declared further inside. -/
def assigned (d : Nat) (x : String) (s : State) (v : Option Int) : Request → Option Int
  | .set y n => if y = x ∧ s.shadows d x = false then some n else v
  | _ => v

/-- What was last assigned to a variable of the outermost `d` frames that held `v` at first. -/
def lastAssigned (d : Nat) (x : String) : State → Option Int → List Request → Option Int
  | _, v, [] => v
  | s, v, r :: rs => lastAssigned d x (s.respond r).2 (s.assigned d x v r) rs

end State

namespace Chain

theorem set?_append (x : String) (n : Int) (fs gs : Chain) :
    set? x n (fs ++ gs) =
      if isDefined fs x then (set? x n fs).map (· ++ gs) else (set? x n gs).map (fs ++ ·) := by
  induction fs with
  | nil => simp [isDefined]
  | cons f fs ih =>
    simp only [List.cons_append, set?, isDefined_cons]
    by_cases hf : f.hasVariable x = true
    · simp [hf]
    · by_cases hfs : isDefined fs x = true <;>
        simp [hf, hfs, ih, Option.map_map, Function.comp_def]

/-- A value that is stored in a chain is read from it, and other names keep theirs. -/
theorem value?_set {x : String} {n : Int} {fs gs : Chain} (h : set? x n fs = some gs) (y : String) :
    value? gs y = if y = x then some n else value? fs y := by
  obtain ⟨-, ⟨l, v, rest, -, hx⟩, hvars, -⟩ := stack_set h
  rw [value?_eq, value?_eq]
  split
  · next hy => simp [hy, hx]
  · next hy => rw [hvars y hy]

theorem isDefined_set {x : String} {n : Int} {fs gs : Chain} (h : set? x n fs = some gs)
    (y : String) : isDefined gs y = isDefined fs y := by
  obtain ⟨-, ⟨l, v, rest, hfs, hgs⟩, hvars, -⟩ := stack_set h
  rw [isDefined_eq, isDefined_eq]
  by_cases hy : y = x
  · simp [hy, hfs, hgs]
  · rw [hvars y hy]

theorem function?_set {x : String} {n : Int} {fs gs : Chain} (h : set? x n fs = some gs)
    (y : String) : function? gs y = function? fs y := by
  obtain ⟨-, -, -, hfuns⟩ := stack_set h
  rw [function?_eq, function?_eq, hfuns y]

end Chain

/-- The frames of a chain reveal what those of another do, but for values. -/
structure Chain.Alike (fs gs : Chain) : Prop where
  length : gs.length = fs.length
  isDefined : ∀ x, gs.isDefined x = fs.isDefined x
  function : ∀ x, gs.function? x = fs.function? x

theorem Chain.Alike.refl (fs : Chain) : fs.Alike fs := ⟨rfl, fun _ => rfl, fun _ => rfl⟩

theorem Chain.Alike.trans {fs gs hs : Chain} (h : fs.Alike gs) (h' : gs.Alike hs) : fs.Alike hs :=
  ⟨h'.length.trans h.length, fun x => (h'.isDefined x).trans (h.isDefined x),
    fun x => (h'.function x).trans (h.function x)⟩

namespace State

variable {s : State} {base : Chain}

theorem shadows_eq {above : Chain} (h : s.outer = above ++ base) (x : String) :
    s.shadows base.length x = Chain.isDefined (s.inner :: above) x := by
  have hframes : s.frames = (s.inner :: above) ++ base := by simp [frames, h]
  have hlength : s.depth - base.length = (s.inner :: above).length := by
    simp [depth, hframes]
    omega
  rw [shadows, hlength, hframes, List.take_left]

/-- An assignment that is made while frames are open inside a chain is to the chain only where
nothing inside it declares the variable. -/
theorem set_inside (h : base <:+ s.outer) (y : String) (n : Int) :
    ∃ base', base' <:+ (s.respond (.set y n)).2.outer ∧ base.Alike base' ∧
      ∀ x, Chain.isDefined base x →
        Chain.value? base' x = s.assigned base.length x (Chain.value? base x) (.set y n) := by
  obtain ⟨above, habove⟩ := h
  have hshadows := s.shadows_eq habove.symm
  simp only [respond, set?, assigned, hshadows, Chain.isDefined_cons]
  cases hinner : s.inner.hasVariable y with
  | true =>
    refine ⟨base, ⟨above, habove⟩, .refl base, fun x _ => ?_⟩
    rw [if_neg]
    rintro ⟨rfl, hx⟩
    simp [hinner] at hx
  | false =>
    simp only [Bool.false_eq_true, if_false, ← habove, Chain.set?_append]
    cases hdefined : Chain.isDefined above y with
    | true =>
      obtain ⟨gs, hgs⟩ := Option.isSome_iff_exists.mp ((Chain.set?_isSome y n above).trans hdefined)
      refine ⟨base, ?_, .refl base, fun x _ => ?_⟩
      · simp [tried, hgs]
      · rw [if_neg]
        rintro ⟨rfl, hx⟩
        simp [hdefined] at hx
    | false =>
      cases hset : Chain.set? y n base with
      | none =>
        have hbase := Chain.set?_isSome y n base
        rw [hset] at hbase
        refine ⟨base, ?_, .refl base, fun x hx => ?_⟩
        · simp [tried, ← habove]
        · rw [if_neg]
          rintro ⟨rfl, -⟩
          rw [← hbase] at hx
          cases hx
      | some base' =>
        refine ⟨base', ?_, ?_, fun x _ => ?_⟩
        · simp [tried]
        · exact ⟨(Chain.stack_set hset).1, Chain.isDefined_set hset, Chain.function?_set hset⟩
        · rw [Chain.value?_set hset]
          by_cases hy : x = y
          · simp [hy, hinner, hdefined]
          · simp [hy, Ne.symm hy]

/-- A request that is made while frames are open inside a chain changes what the chain holds by an
assignment at most. -/
theorem respond_inside (h : base <:+ s.outer) (r : Request)
    (hdepth : base.length < (s.respond r).2.depth) :
    ∃ base', base' <:+ (s.respond r).2.outer ∧ base.Alike base' ∧
      ∀ x, Chain.isDefined base x →
        Chain.value? base' x = s.assigned base.length x (Chain.value? base x) r := by
  have hsame : ∀ t : State, base <:+ t.outer → ∃ base', base' <:+ t.outer ∧ base.Alike base' ∧
      ∀ x, Chain.isDefined base x → Chain.value? base' x = Chain.value? base x :=
    fun t ht => ⟨base, ht, .refl base, fun _ _ => rfl⟩
  cases r with
  | enter => exact hsame _ (h.trans (List.suffix_cons _ _))
  | leave =>
    simp only [respond, close?] at hdepth ⊢
    cases hs : s.outer with
    | nil => exact hsame s h
    | cons f fs =>
      simp only [hs] at h hdepth ⊢
      rcases List.suffix_cons_iff.mp h with hbase | hbase
      · simp [hbase, depth, frames] at hdepth
      · exact ⟨base, hbase, .refl base, fun _ _ => rfl⟩
  | declare x =>
    simp only [respond, declare?]
    split
    · exact hsame _ h
    · exact hsame _ h
  | declareFunction x g =>
    simp only [respond, declareFunction?]
    split
    · exact hsame _ h
    · exact hsame _ h
  | value x | isDefined x | function x => exact hsame s h
  | set y n => exact set_inside h y n

theorem after_inside (h : base <:+ s.outer) (rs : List Request)
    (hdepth : ∀ e ∈ s.exchanges rs, base.length < e.depth) :
    ∃ base', base' <:+ (s.after rs).outer ∧ base.Alike base' ∧
      ∀ x, Chain.isDefined base x →
        Chain.value? base' x = lastAssigned base.length x s (Chain.value? base x) rs := by
  induction rs generalizing s base with
  | nil => exact ⟨base, h, .refl base, fun _ _ => rfl⟩
  | cons r rs ih =>
    simp only [exchanges, Bronti.exchanges, List.forall_mem_cons] at hdepth
    obtain ⟨hstep, hrest⟩ := hdepth
    obtain ⟨mid, hmid, halike, hvalue⟩ := respond_inside h r hstep
    rw [← halike.length] at hrest
    obtain ⟨base', hbase', halike', hvalue'⟩ := ih hmid hrest
    refine ⟨base', hbase', halike.trans halike', fun x hx => ?_⟩
    rw [hvalue' x (by rw [halike.isDefined, hx]), hvalue x hx, halike.length]
    rfl

/-- Closing a frame reveals the frames outside it with what was last assigned to each variable. -/
theorem leave_reveals (s : State) (inside : List Request)
    (hinside : ∀ e ∈ s.opened.exchanges inside, s.depth < e.depth)
    (hdepth : (s.opened.after inside).depth = s.depth + 1) :
    ∃ u, (s.opened.after inside).respond .leave = (.done, u) ∧ s.frames.Alike u.frames ∧
      ∀ x, Chain.isDefined s.frames x →
        Chain.value? u.frames x =
          lastAssigned s.depth x s.opened (Chain.value? s.frames x) inside := by
  have hopened : s.frames <:+ s.opened.outer := List.suffix_refl _
  obtain ⟨base, hbase, halike, hvalue⟩ := after_inside hopened inside hinside
  have hlength : (s.opened.after inside).outer.length = base.length := by
    rw [halike.length]
    simpa [depth, frames] using hdepth
  have houter : base = (s.opened.after inside).outer := hbase.eq_of_length hlength.symm
  cases hfs : (s.opened.after inside).outer with
  | nil => simp [depth, frames, hfs] at hdepth
  | cons f fs =>
    refine ⟨{ s.opened.after inside with inner := f, outer := fs }, ?_, ?_, ?_⟩
    · simp [respond, close?, hfs]
    · rw [houter, hfs] at halike
      exact halike
    · rw [houter, hfs] at hvalue
      exact hvalue

end State

/-- No sequence of requests tells a state from its stacks: every answer and every depth is the same.
So requests about one variable or one function are answered as if those about others had not been
made, and a frame that is closed reveals every variable declared outside it with the value that was
last assigned to it while none of its name was declared further inside. -/
theorem state_refines_stacks (tracing : Bool) (rs : List Request) :
    (State.initial tracing).exchanges rs = Stacks.fresh.exchanges rs ∧
    (∀ k, ((State.initial tracing).exchanges rs).filter (fun e => e.request.concerns k) =
      (State.initial tracing).exchanges (rs.filter (Request.concerns k))) ∧
    ∀ s, s = (State.initial tracing).after rs → ∀ inside,
      (∀ e ∈ s.opened.exchanges inside, s.depth < e.depth) →
      (s.opened.after inside).depth = s.depth + 1 →
      ∃ u, (s.opened.after inside).respond .leave = (.done, u) ∧ s.frames.Alike u.frames ∧
        ∀ x, Chain.isDefined s.frames x →
          Chain.value? u.frames x =
            State.lastAssigned s.depth x s.opened (Chain.value? s.frames x) inside := by
  have hstacks := fun rs => (State.initial tracing).exchanges_stacks rs
  rw [State.stacks_initial] at hstacks
  refine ⟨hstacks rs, fun k => ?_, fun s _ => s.leave_reveals⟩
  rw [hstacks, hstacks]
  exact Stacks.exchanges_filter (.refl k _) rs

/-- What is assigned inside before the variable is declared there reveals itself, and what is
assigned after that does not. -/
theorem assigned_before_shadowing :
    ∃ u, (((State.initial false).after [.declare "x", .set "x" 1]).opened.after
          [.set "x" 2, .declare "x", .set "x" 3]).respond .leave = (.done, u) ∧
      Chain.value? u.frames "x" = some 2 := by
  obtain ⟨u, hleave, -, hvalue⟩ :=
    (state_refines_stacks false [.declare "x", .set "x" 1]).2.2 _ rfl
      [.set "x" 2, .declare "x", .set "x" 3] (by decide) (by decide)
  exact ⟨u, hleave, (hvalue "x" (by decide)).trans (by decide)⟩

end Bronti
