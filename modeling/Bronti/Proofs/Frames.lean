import Bronti.State
import Mathlib.Data.List.Forall2

/-!
Frames over time: what a frame keeps of its bindings while it is open, and how the frame that is
innermost may grow.
-/
namespace Bronti

/-- The names of bindings, in order. -/
def names {α : Type} (bindings : List (String × α)) : List String := bindings.map Prod.fst

/-- Names that may be declared next to those in use: each of them new, and none of them twice. -/
structure Fresh (used new : List String) : Prop where
  nodup : new.Nodup
  unused : ∀ x ∈ new, x ∉ used

/-- A variable keeps its name, and its value is not taken away once it has one. -/
structure Stays (a b : String × Option Int) : Prop where
  name : a.1 = b.1
  set : a.2.isSome → b.2.isSome

/-- The frame has the variables and the functions that it had, in the same order, and every variable
that had a value still has one. -/
structure Frame.Kept (f g : Frame) : Prop where
  vars : List.Forall₂ Stays f.vars g.vars
  funs : g.funs = f.funs

/-- The frame has what it had, and at the ends perhaps more variables and functions of fresh
names. -/
structure Frame.Grown (f g : Frame) : Prop where
  vars : ∃ old new, g.vars = old ++ new ∧ List.Forall₂ Stays f.vars old ∧
    Fresh (names f.vars) (names new)
  funs : ∃ new, g.funs = f.funs ++ new ∧ Fresh (names f.funs) (names new)

/-- Every frame of a state has what it had. -/
def State.Kept (s t : State) : Prop := List.Forall₂ Frame.Kept s.frames t.frames

/-- Every frame of a state has what it had, and the innermost one perhaps more. -/
structure State.Grown (s t : State) : Prop where
  inner : s.inner.Grown t.inner
  outer : List.Forall₂ Frame.Kept s.outer t.outer

theorem Fresh.nil (used : List String) : Fresh used [] := ⟨List.nodup_nil, by simp⟩

theorem Fresh.append {used xs ys : List String} (hx : Fresh used xs) (hy : Fresh (used ++ xs) ys) :
    Fresh used (xs ++ ys) := by
  refine ⟨?_, ?_⟩
  · refine List.nodup_append.mpr ⟨hx.nodup, hy.nodup, ?_⟩
    rintro x hxs _ hys rfl
    exact hy.unused x hys (by simp [hxs])
  · intro x hm hu
    rcases List.mem_append.mp hm with hm | hm
    · exact hx.unused x hm hu
    · exact hy.unused x hm (by simp [hu])

theorem forall₂_trans {α : Type} {R : α → α → Prop} {xs ys zs : List α}
    (h : List.Forall₂ R xs ys) (h' : List.Forall₂ R ys zs)
    (hR : ∀ {a b c}, R a b → R b c → R a c) : List.Forall₂ R xs zs := by
  induction h generalizing zs with
  | nil => exact h'
  | cons hab _ ih =>
    cases h' with
    | cons hbc h' => exact .cons (hR hab hbc) (ih h')

theorem Stays.refl (a : String × Option Int) : Stays a a := ⟨rfl, id⟩

theorem Stays.trans {a b c : String × Option Int} (h : Stays a b) (h' : Stays b c) : Stays a c :=
  ⟨h.name.trans h'.name, fun ha => h'.set (h.set ha)⟩

theorem names_of_stays {xs ys : List (String × Option Int)} (h : List.Forall₂ Stays xs ys) :
    names ys = names xs := by
  induction h with
  | nil => rfl
  | cons hab _ ih =>
    simp only [names, List.map_cons] at ih ⊢
    rw [hab.name, ih]

theorem names_append {α : Type} (xs ys : List (String × α)) :
    names (xs ++ ys) = names xs ++ names ys := List.map_append

theorem stays_store (x : String) (n : Int) (vars : List (String × Option Int)) :
    List.Forall₂ Stays vars (Frame.store x n vars) := by
  induction vars with
  | nil => exact .nil
  | cons b vars ih =>
    obtain ⟨y, v⟩ := b
    simp only [Frame.store]
    split
    · exact .cons ⟨rfl, fun _ => rfl⟩ (List.forall₂_same.mpr fun a _ => .refl a)
    · exact .cons (.refl _) ih

namespace Frame

theorem hasVariable_iff (f : Frame) (x : String) : f.hasVariable x = true ↔ x ∈ names f.vars := by
  simp [hasVariable, names]

theorem hasVariable_of_not_mem {f : Frame} {x : String} (h : x ∉ names f.vars) :
    f.hasVariable x = false := by
  rw [← f.hasVariable_iff] at h
  simpa using h

theorem hasVariable_addVariable (f : Frame) (x : String) :
    (f.addVariable x).hasVariable x = true := by
  rw [hasVariable_iff]
  simp [names, addVariable]

theorem hasFunction_iff (f : Frame) (x : String) : f.hasFunction x = true ↔ x ∈ names f.funs := by
  simp [hasFunction, names]

namespace Kept

variable {f g h : Frame}

theorem refl (f : Frame) : f.Kept f := ⟨List.forall₂_same.mpr fun a _ => .refl a, rfl⟩

theorem trans (hfg : f.Kept g) (hgh : g.Kept h) : f.Kept h :=
  ⟨forall₂_trans hfg.vars hgh.vars Stays.trans, hgh.funs.trans hfg.funs⟩

theorem grown (hfg : f.Kept g) : f.Grown g :=
  ⟨⟨g.vars, [], by simp, hfg.vars, .nil _⟩, ⟨[], by simp [hfg.funs], .nil _⟩⟩

theorem setVariable (f : Frame) (x : String) (n : Int) : f.Kept (f.setVariable x n) :=
  ⟨stays_store x n f.vars, rfl⟩

end Kept

namespace Grown

variable {f g h : Frame}

theorem trans (hfg : f.Grown g) (hgh : g.Grown h) : f.Grown h := by
  obtain ⟨⟨old, new, hg, hold, hnew⟩, funs, hgf, hfuns⟩ := hfg
  obtain ⟨⟨old', new', hh, hold', hnew'⟩, funs', hhf, hfuns'⟩ := hgh
  refine ⟨?_, funs ++ funs', by rw [hhf, hgf, List.append_assoc], ?_⟩
  · rw [hg] at hold' hnew'
    have hlen : old'.length = old.length + new.length := by
      simpa using hold'.length_eq.symm
    have hkept := List.forall₂_take old.length hold'
    have hmore := List.forall₂_drop old.length hold'
    rw [List.take_left] at hkept
    rw [List.drop_left] at hmore
    refine ⟨old'.take old.length, old'.drop old.length ++ new', ?_, ?_, ?_⟩
    · rw [hh, ← List.append_assoc, List.take_append_drop]
    · exact forall₂_trans hold hkept Stays.trans
    · rw [names_append, names_of_stays hmore]
      apply hnew.append
      rwa [names_append, names_of_stays hold] at hnew'
  · rw [names_append]
    apply hfuns.append
    rwa [hgf, names_append] at hfuns'

theorem addVariable {x : String} (hx : f.hasVariable x = false) : f.Grown (f.addVariable x) := by
  refine ⟨⟨f.vars, [(x, none)], rfl, List.forall₂_same.mpr fun a _ => .refl a, ?_⟩, [], ?_, .nil _⟩
  · refine ⟨by simp [names], ?_⟩
    intro y hy
    simp only [names, List.map_cons, List.map_nil, List.mem_singleton] at hy
    rw [hy, ← f.hasVariable_iff, hx]
    simp
  · simp [Frame.addVariable]

theorem addFunction {x : String} {k : Function} (hx : f.hasFunction x = false) :
    f.Grown (f.addFunction x k) := by
  refine ⟨(Kept.refl f).grown.vars, [(x, k)], rfl, by simp [names], ?_⟩
  intro y hy
  simp only [names, List.map_cons, List.map_nil, List.mem_singleton] at hy
  rw [hy, ← f.hasFunction_iff, hx]
  simp

end Grown

end Frame

namespace State

variable {s t u : State}

theorem Kept.refl (s : State) : s.Kept s := List.forall₂_same.mpr fun f _ => .refl f

theorem Kept.of_frames (h : t.frames = s.frames) : s.Kept t := by
  unfold Kept
  rw [h]
  exact Kept.refl s

theorem Kept.trans (h : s.Kept t) (h' : t.Kept u) : s.Kept u :=
  forall₂_trans h h' Frame.Kept.trans

theorem Kept.grown (h : s.Kept t) : s.Grown t := by
  cases h with
  | cons hin hout => exact ⟨hin.grown, hout⟩

theorem Grown.refl (s : State) : s.Grown s := (Kept.refl s).grown

theorem Grown.trans (h : s.Grown t) (h' : t.Grown u) : s.Grown u :=
  ⟨h.inner.trans h'.inner, forall₂_trans h.outer h'.outer Frame.Kept.trans⟩

theorem Grown.depth (h : s.Grown t) : t.depth = s.depth := by
  simp [State.depth, frames, h.outer.length_eq]

end State

theorem Chain.kept_set {x : String} {n : Int} {fs gs : Chain} (h : Chain.set? x n fs = some gs) :
    List.Forall₂ Frame.Kept fs gs := by
  induction fs generalizing gs with
  | nil => cases h
  | cons f fs ih =>
    simp only [Chain.set?] at h
    split at h
    · cases h
      exact .cons (.setVariable f x n) (List.forall₂_same.mpr fun f _ => .refl f)
    · obtain ⟨hs, hhs, rfl⟩ := Option.map_eq_some_iff.mp h
      exact .cons (.refl f) (ih hhs)

namespace State

variable {s t : State}

theorem kept_set {x : String} {n : Int} (h : s.set? x n = some t) : s.Kept t := by
  unfold State.set? at h
  split at h
  · cases h
    exact .cons (.setVariable _ x n) (List.forall₂_same.mpr fun f _ => .refl f)
  · obtain ⟨fs, hfs, rfl⟩ := Option.map_eq_some_iff.mp h
    exact .cons (.refl _) (Chain.kept_set hfs)

/-- Storing a value searches all frames alike, from the innermost one on. -/
theorem frames_set (s : State) (x : String) (n : Int) :
    (s.set? x n).map frames = Chain.set? x n s.frames := by
  simp only [State.set?, frames, Chain.set?]
  split
  · rfl
  · cases Chain.set? x n s.outer <;> rfl

theorem close?_of_outer {f : Frame} {fs : Chain} (h : s.outer = f :: fs) :
    s.close? = some { s with inner := f, outer := fs } := by
  rw [close?, h]

theorem printed_set {x : String} {n : Int} (h : s.set? x n = some t) : t.printed = s.printed := by
  unfold State.set? at h
  split at h
  · cases h
    rfl
  · obtain ⟨fs, _, rfl⟩ := Option.map_eq_some_iff.mp h
    rfl

theorem grown_declare {x : String} (h : s.declare? x = some t) : s.Grown t := by
  unfold State.declare? at h
  split at h
  · cases h
  · next hx =>
    cases h
    exact ⟨.addVariable (by simpa using hx), (Kept.refl s).grown.outer⟩

theorem grown_declareFunction {x : String} {g : Function} (h : s.declareFunction? x g = some t) :
    s.Grown t := by
  unfold State.declareFunction? at h
  split at h
  · cases h
  · next hx =>
    cases h
    exact ⟨.addFunction (by simpa using hx), (Kept.refl s).grown.outer⟩

theorem frames_callBuiltin {name : String} {args : List Int}
    (h : s.callBuiltin? name args = some t) : t.frames = s.frames := by
  unfold State.callBuiltin? at h
  split at h
  · cases h
    rfl
  · cases h

theorem frames_visit (s : State) (a : Ast) : (s.visit a).frames = s.frames := by
  unfold State.visit
  split <;> rfl

theorem printed_visit (s : State) (a : Ast) : (s.visit a).printed = s.printed := by
  unfold State.visit
  split <;> rfl

theorem printed_declare {x : String} (h : s.declare? x = some t) : t.printed = s.printed := by
  unfold State.declare? at h
  split at h <;> cases h
  rfl

theorem printed_declareFunction {x : String} {g : Function}
    (h : s.declareFunction? x g = some t) : t.printed = s.printed := by
  unfold State.declareFunction? at h
  split at h <;> cases h
  rfl

theorem printed_close (h : s.close? = some t) : t.printed = s.printed := by
  unfold State.close? at h
  split at h <;> cases h
  rfl

/-- What happens in a frame of its own leaves the frames under it as they were. -/
theorem Grown.close (h : s.opened.Grown t) : ∃ u, t.close? = some u ∧ s.Kept u := by
  have hout := h.outer
  simp only [State.opened, State.frames] at hout
  unfold State.close?
  cases ht : t.outer with
  | nil =>
    rw [ht] at hout
    cases hout
  | cons f fs =>
    rw [ht] at hout
    exact ⟨_, rfl, hout⟩

end State

theorem Chain.funs_of_kept {fs gs : Chain} (h : List.Forall₂ Frame.Kept fs gs) :
    ∀ g ∈ gs, ∃ f ∈ fs, g.funs = f.funs := by
  induction h with
  | nil => simp
  | @cons f g fs gs hfg _ ih =>
    intro k hk
    rcases List.mem_cons.mp hk with rfl | hk
    · exact ⟨f, by simp, hfg.funs⟩
    · obtain ⟨f', hf', he⟩ := ih k hk
      exact ⟨f', by simp [hf'], he⟩

theorem Chain.mem_of_function {fs : Chain} {x : String} {k : Function}
    (h : fs.function? x = some k) : ∃ f ∈ fs, (x, k) ∈ f.funs := by
  induction fs with
  | nil => cases h
  | cons f fs ih =>
    simp only [Chain.function?] at h
    split at h
    · next g hg =>
      cases h
      obtain ⟨before, after, hfuns, _⟩ := List.lookup_eq_some_iff.mp hg
      exact ⟨f, by simp, by simp [hfuns]⟩
    · obtain ⟨g, hg, hm⟩ := ih h
      exact ⟨g, by simp [hg], hm⟩

/-! ## What holds of every frame -/

namespace State

variable {P : Frame → Prop} {s t : State} {x : String}

theorem forall_frames_opened (hs : ∀ f ∈ s.frames, P f) (hempty : P .empty) :
    ∀ f ∈ s.opened.frames, P f := List.forall_mem_cons.mpr ⟨hempty, hs⟩

theorem forall_frames_close (hs : ∀ f ∈ s.frames, P f) (h : s.close? = some t) :
    ∀ f ∈ t.frames, P f := by
  obtain ⟨-, houter⟩ := List.forall_mem_cons.mp hs
  unfold State.close? at h
  split at h
  · cases h
  · next f fs hfs =>
    cases h
    rwa [hfs] at houter

theorem forall_frames_declare (hs : ∀ f ∈ s.frames, P f) (h : s.declare? x = some t)
    (hinner : P s.inner → P (s.inner.addVariable x)) : ∀ f ∈ t.frames, P f := by
  obtain ⟨hin, houter⟩ := List.forall_mem_cons.mp hs
  unfold State.declare? at h
  split at h
  · cases h
  · cases h
    exact List.forall_mem_cons.mpr ⟨hinner hin, houter⟩

theorem forall_frames_declareFunction {g : Function} (hs : ∀ f ∈ s.frames, P f)
    (h : s.declareFunction? x g = some t) (hinner : P s.inner → P (s.inner.addFunction x g)) :
    ∀ f ∈ t.frames, P f := by
  obtain ⟨hin, houter⟩ := List.forall_mem_cons.mp hs
  unfold State.declareFunction? at h
  split at h
  · cases h
  · cases h
    exact List.forall_mem_cons.mpr ⟨hinner hin, houter⟩

end State

/-- Every function that is declared in a state has a property. -/
def State.EveryFunction (P : Function → Prop) (s : State) : Prop :=
  ∀ f ∈ s.frames, ∀ p ∈ f.funs, P p.2

namespace State.EveryFunction

variable {P : Function → Prop} {s t : State} {x : String}

theorem initial (tracing : Bool) : (State.initial tracing).EveryFunction P := by
  simp [EveryFunction, State.initial, frames, Frame.empty]

theorem of_kept (hs : s.EveryFunction P) (h : s.Kept t) : t.EveryFunction P := by
  intro g hg p hp
  obtain ⟨f, hf, he⟩ := Chain.funs_of_kept h g hg
  exact hs f hf p (he ▸ hp)

theorem function (hs : s.EveryFunction P) {k : Function} (h : s.frames.function? x = some k) :
    P k := by
  obtain ⟨f, hf, hm⟩ := Chain.mem_of_function h
  exact hs f hf (x, k) hm

theorem opened (hs : s.EveryFunction P) : s.opened.EveryFunction P :=
  forall_frames_opened hs (by simp [Frame.empty])

theorem close (hs : s.EveryFunction P) (h : s.close? = some t) : t.EveryFunction P :=
  forall_frames_close hs h

theorem declare (hs : s.EveryFunction P) (h : s.declare? x = some t) : t.EveryFunction P :=
  forall_frames_declare hs h id

theorem declareFunction {g : Function} (hs : s.EveryFunction P) (hg : P g)
    (h : s.declareFunction? x g = some t) : t.EveryFunction P := by
  refine forall_frames_declareFunction hs h fun hinner p hp => ?_
  rcases List.mem_append.mp hp with hp | hp
  · exact hinner p hp
  · rw [List.mem_singleton.mp hp]
    exact hg

end State.EveryFunction

end Bronti
