import Bronti.Proofs.Observation

/-!
Variables that are not mentioned. Every callee sees the variables of its callers and may assign
them; still, a variable that neither a tree nor any function in reach mentions is neither read nor
written, in whichever frames it is bound and whatever it holds there.
-/
namespace Bronti

/-- A variable is mentioned nowhere in a tree: as a reference, as the target of an assignment, in a
declaration or as a parameter. -/
def Ast.Omits (z : String) (a : Ast) : Prop := ∀ b ∈ a.nodes, z ∉ b.ownVariables

instance (z : String) (a : Ast) : Decidable (a.Omits z) := inferInstanceAs (Decidable (∀ b ∈ _, _))

theorem Ast.Omits.own {z : String} {a : Ast} (h : a.Omits z) : z ∉ a.ownVariables :=
  h a a.mem_nodes_self

theorem Ast.Omits.child {z : String} {a b : Ast} (h : a.Omits z) (hb : b ∈ a.children) :
    b.Omits z := fun c hc => h c (Ast.mem_nodes_of_child hb hc)

/-- A function mentions a variable neither as a parameter nor in its body. -/
structure Function.Omits (z : String) (f : Function) : Prop where
  params : z ∉ f.params
  body : f.body.Omits z

/-- A frame without the bindings of a variable. -/
def Frame.without (z : String) (f : Frame) : Frame :=
  { f with vars := f.vars.filter fun p => p.1 ≠ z }

/-- The bindings of a variable in a frame. -/
def Frame.only (z : String) (f : Frame) : List (String × Option Int) :=
  f.vars.filter fun p => p.1 = z

/-- A chain without the bindings of a variable. -/
def Chain.without (z : String) (fs : Chain) : Chain := fs.map (Frame.without z)

/-- The bindings of a variable, frame by frame. -/
def Chain.only (z : String) (fs : Chain) : List (List (String × Option Int)) :=
  fs.map (Frame.only z)

section Bindings

variable {x z : String} (hx : x ≠ z)
include hx

theorem lookup_without (vars : List (String × Option Int)) :
    (vars.filter fun p => p.1 ≠ z).lookup x = vars.lookup x := by
  induction vars with
  | nil => rfl
  | cons p vars ih =>
    obtain ⟨y, v⟩ := p
    by_cases hy : y = z
    · have hne : (x == y) = false := beq_false_of_ne (hy ▸ hx)
      rw [List.filter_cons_of_neg (by simpa using hy), ih]
      simp [List.lookup_cons, hne]
    · rw [List.filter_cons_of_pos (by simpa using hy)]
      simp only [List.lookup_cons, ih]

theorem store_without (n : Int) (vars : List (String × Option Int)) :
    (Frame.store x n vars).filter (fun p => p.1 ≠ z) =
      Frame.store x n (vars.filter fun p => p.1 ≠ z) := by
  induction vars with
  | nil => rfl
  | cons p vars ih =>
    obtain ⟨y, v⟩ := p
    by_cases hyx : y = x
    · simp [Frame.store, hyx, hx]
    · by_cases hyz : y = z
      · simpa [Frame.store, hyz, Ne.symm hx] using ih
      · simpa [Frame.store, hyx, hyz] using ih

theorem store_only (n : Int) (vars : List (String × Option Int)) :
    (Frame.store x n vars).filter (fun p => p.1 = z) = vars.filter fun p => p.1 = z := by
  induction vars with
  | nil => rfl
  | cons p vars ih =>
    obtain ⟨y, v⟩ := p
    by_cases hyx : y = x
    · simp [Frame.store, hyx, hx]
    · simp only [Frame.store, if_neg hyx, List.filter_cons, ih]

namespace Frame

theorem hasVariable_without (f : Frame) : (f.without z).hasVariable x = f.hasVariable x := by
  simp only [hasVariable, without, lookup_without hx]

theorem setVariable_without (f : Frame) (n : Int) :
    (f.setVariable x n).without z = (f.without z).setVariable x n := by
  simp only [setVariable, without, store_without hx]

theorem addVariable_without (f : Frame) :
    (f.addVariable x).without z = (f.without z).addVariable x := by
  simp [addVariable, without, List.filter_append, hx]

theorem only_setVariable (f : Frame) (n : Int) : (f.setVariable x n).only z = f.only z := by
  simp only [setVariable, only, store_only hx]

theorem only_addVariable (f : Frame) : (f.addVariable x).only z = f.only z := by
  simp [addVariable, only, List.filter_append, hx]

end Frame

namespace Chain

theorem isDefined_without (fs : Chain) : isDefined (without z fs) x = isDefined fs x := by
  induction fs with
  | nil => rfl
  | cons f fs ih =>
    rw [isDefined_cons, ← ih, ← f.hasVariable_without hx]
    rfl

theorem value?_without (fs : Chain) : value? (without z fs) x = value? fs x := by
  induction fs with
  | nil => rfl
  | cons f fs ih =>
    simp only [value?, ← ih, ← lookup_without hx f.vars]
    rfl

theorem set?_without (n : Int) (fs : Chain) :
    (set? x n fs).map (without z) = set? x n (without z fs) := by
  induction fs with
  | nil => rfl
  | cons f fs ih =>
    simp only [set?, without, List.map_cons, f.hasVariable_without hx] at ih ⊢
    split
    · simp [without, f.setVariable_without hx]
    · rw [← ih]
      simp [Function.comp_def, without]

theorem only_of_set {n : Int} {fs gs : Chain} (h : set? x n fs = some gs) :
    only z gs = only z fs := by
  induction fs generalizing gs with
  | nil => cases h
  | cons f fs ih =>
    simp only [set?] at h
    split at h
    · cases h
      simp [only, f.only_setVariable hx]
    · obtain ⟨hs, hhs, rfl⟩ := Option.map_eq_some_iff.mp h
      have hrest := ih hhs
      simp only [only, List.map_cons] at hrest ⊢
      rw [hrest]

end Chain

end Bindings

theorem Frame.hasFunction_without (z : String) (f : Frame) (x : String) :
    (f.without z).hasFunction x = f.hasFunction x := rfl

theorem Frame.addFunction_without (z : String) (f : Frame) (x : String) (g : Function) :
    (f.addFunction x g).without z = (f.without z).addFunction x g := rfl

theorem Chain.function?_without (z : String) (fs : Chain) (x : String) :
    function? (without z fs) x = function? fs x := by
  induction fs with
  | nil => rfl
  | cons f fs ih =>
    simp only [function?, ← ih]
    rfl

/-- Two runs, each since its start: but for the bindings of the variable the chains are the same,
in each run these are as they were, and the runs have printed the same. -/
structure Apart (z : String) (start : State × State) (s t : State) : Prop where
  inner : s.inner.without z = t.inner.without z
  outer : Chain.without z s.outer = Chain.without z t.outer
  first : Chain.only z s.frames = Chain.only z start.1.frames
  second : Chain.only z t.frames = Chain.only z start.2.frames
  printed : ∃ said, s.printed = said ++ start.1.printed ∧ t.printed = said ++ start.2.printed
  functions : s.EveryFunction (Function.Omits z)

namespace Apart

variable {x z : String} {start : State × State} {s t : State}

theorem frames (h : Apart z start s t) : Chain.without z s.frames = Chain.without z t.frames :=
  congrArg₂ List.cons h.inner h.outer

theorem hasFunction (h : Apart z start s t) (x : String) :
    s.inner.hasFunction x = t.inner.hasFunction x := by
  rw [← Frame.hasFunction_without z, h.inner, Frame.hasFunction_without]

theorem visit_first (h : Apart z start s t) (a : Ast) : Apart z start (s.visit a) t := by
  unfold State.visit
  split
  · exact ⟨h.inner, h.outer, h.first, h.second, h.printed, h.functions⟩
  · exact h

theorem visit_second (h : Apart z start s t) (a : Ast) : Apart z start s (t.visit a) := by
  unfold State.visit
  split
  · exact ⟨h.inner, h.outer, h.first, h.second, h.printed, h.functions⟩
  · exact h

theorem hasVariable (h : Apart z start s t) (hx : x ≠ z) :
    s.inner.hasVariable x = t.inner.hasVariable x := by
  rw [← s.inner.hasVariable_without hx, h.inner, t.inner.hasVariable_without hx]

theorem value (h : Apart z start s t) (hx : x ≠ z) :
    Chain.value? s.frames x = Chain.value? t.frames x := by
  rw [← Chain.value?_without hx, h.frames, Chain.value?_without hx]

theorem isDefined (h : Apart z start s t) (hx : x ≠ z) :
    Chain.isDefined s.frames x = Chain.isDefined t.frames x := by
  rw [← Chain.isDefined_without hx, h.frames, Chain.isDefined_without hx]

theorem function (h : Apart z start s t) (x : String) :
    Option.Rel (fun f g => f = g ∧ f.Omits z) (Chain.function? s.frames x)
      (Chain.function? t.frames x) := by
  rw [← Chain.function?_without z t.frames, ← h.frames, Chain.function?_without]
  cases hf : Chain.function? s.frames x with
  | none => exact .none
  | some f => exact .some ⟨rfl, h.functions.function hf⟩

theorem declare (h : Apart z start s t) (hx : x ≠ z) :
    Option.Rel (Apart z start) (s.declare? x) (t.declare? x) := by
  have hfunctions := fun u => h.functions.declare (x := x) (t := u)
  simp only [State.declare?, h.hasVariable hx] at hfunctions ⊢
  split
  · exact .none
  · next hnew =>
    refine .some ⟨?_, h.outer, ?_, ?_, h.printed, hfunctions _ (by rw [if_neg hnew])⟩
    · simp only [Frame.addVariable_without hx, h.inner]
    · rw [← h.first]
      simp [State.frames, Chain.only, Frame.only_addVariable hx]
    · rw [← h.second]
      simp [State.frames, Chain.only, Frame.only_addVariable hx]

theorem set (h : Apart z start s t) (hx : x ≠ z) (n : Int) :
    Option.Rel (Apart z start) (s.set? x n) (t.set? x n) := by
  simp only [State.set?, h.hasVariable hx]
  split
  · refine .some ⟨?_, h.outer, ?_, ?_, h.printed, ?_⟩
    · simp only [Frame.setVariable_without hx, h.inner]
    · rw [← h.first]
      simp [State.frames, Chain.only, Frame.only_setVariable hx]
    · rw [← h.second]
      simp [State.frames, Chain.only, Frame.only_setVariable hx]
    · exact h.functions.of_kept
        (.cons (.setVariable _ x n) (List.forall₂_same.mpr fun f _ => .refl f))
  · have houter : (Chain.set? x n s.outer).map (Chain.without z) =
        (Chain.set? x n t.outer).map (Chain.without z) := by
      rw [Chain.set?_without hx, h.outer, Chain.set?_without hx]
    cases hs : Chain.set? x n s.outer with
    | none =>
      cases ht : Chain.set? x n t.outer with
      | none => exact .none
      | some gs => simp [hs, ht] at houter
    | some fs =>
      cases ht : Chain.set? x n t.outer with
      | none => simp [hs, ht] at houter
      | some gs =>
        refine .some ⟨h.inner, by simpa [hs, ht] using houter, ?_, ?_, h.printed, ?_⟩
        · rw [← h.first]
          exact congrArg (_ :: ·) (Chain.only_of_set hx hs)
        · rw [← h.second]
          exact congrArg (_ :: ·) (Chain.only_of_set hx ht)
        · exact h.functions.of_kept (.cons (.refl _) (Chain.kept_set hs))

theorem declareFunction (h : Apart z start s t) (x : String) {f : Function} (hf : f.Omits z) :
    Option.Rel (Apart z start) (s.declareFunction? x f) (t.declareFunction? x f) := by
  have hfunctions := fun u => h.functions.declareFunction (x := x) (t := u) hf
  simp only [State.declareFunction?, h.hasFunction x] at hfunctions ⊢
  split
  · exact .none
  · next hnew =>
    refine .some ⟨?_, h.outer, h.first, h.second, h.printed, hfunctions _ (by rw [if_neg hnew])⟩
    simp only [Frame.addFunction_without, h.inner]

theorem callBuiltin (h : Apart z start s t) (x : String) (ns : List Int) :
    Option.Rel (Apart z start) (s.callBuiltin? x ns) (t.callBuiltin? x ns) := by
  obtain ⟨said, hs, ht⟩ := h.printed
  unfold State.callBuiltin?
  split
  · refine .some ⟨h.inner, h.outer, h.first, h.second, ⟨ns :: said, ?_, ?_⟩, h.functions⟩
    · exact congrArg (ns :: ·) hs
    · exact congrArg (ns :: ·) ht
  · exact .none

theorem opened (h : Apart z start s t) :
    Apart z (start.1.opened, start.2.opened) s.opened t.opened :=
  ⟨rfl, h.frames, congrArg ([] :: ·) h.first, congrArg ([] :: ·) h.second, h.printed,
    h.functions.opened⟩

/-- The runs are inside frames of their own since they were opened, so there are frames to close. -/
theorem close (h : Apart z (start.1.opened, start.2.opened) s t) :
    ∃ u v, s.close? = some u ∧ t.close? = some v ∧ Apart z start u v := by
  have hs : Chain.only z s.outer = Chain.only z start.1.frames := (List.cons.inj h.first).2
  have ht : Chain.only z t.outer = Chain.only z start.2.frames := (List.cons.inj h.second).2
  have houter := h.outer
  have hfunctions := fun u => h.functions.close (t := u)
  unfold State.close? at hfunctions ⊢
  cases hso : s.outer with
  | nil =>
    rw [hso] at hs
    cases hs
  | cons f fs =>
    cases hto : t.outer with
    | nil =>
      rw [hto] at ht
      cases ht
    | cons g gs =>
      rw [hso, hto] at houter
      rw [hso] at hs hfunctions
      rw [hto] at ht
      obtain ⟨hinner, hrest⟩ := List.cons.inj houter
      exact ⟨_, _, rfl, rfl, hinner, hrest, hs, ht, h.printed, hfunctions _ rfl⟩

end Apart

/-- Runs of the same tree, which does not mention the variable. -/
def Correspondence.apart (z : String) : Correspondence (State × State) where
  late := False
  vars x y := x = y ∧ x ≠ z
  funs := Eq
  spans := Eq
  functions f g := f = g ∧ f.Omits z
  tree _ a b := a = b ∧ a.Omits z
  state := Apart z
  inside start := (start.1.opened, start.2.opened)
  declares _ := True
  span_rel h := congrArg Ast.span h.1
  repeated_eq h := by
    have hsame : List.Forall₂ Eq _ _ := h.imp fun _ _ hxy => hxy.1
    rw [List.forall₂_eq_eq_eq] at hsame
    rw [hsame]
  params_rel := by
    rintro f _ ⟨rfl, hf⟩
    exact List.forall₂_same.mpr fun x hx => ⟨rfl, fun h => hf.params (h ▸ hx)⟩
  body_rel := by
    rintro f _ _ ⟨rfl, hf⟩
    exact ⟨rfl, hf.body⟩
  visit_first a h := h.visit_first a
  visit_second a h := h.visit_second a
  value_eq := by
    rintro _ s t x _ h ⟨rfl, hx⟩
    exact h.value hx
  isDefined_eq := by
    rintro _ s t x _ h ⟨rfl, hx⟩
    exact h.isDefined hx
  function_rel := by
    rintro _ s t x _ h rfl
    exact h.function x
  declare_rel := by
    rintro _ s t x _ _ h ⟨rfl, hx⟩
    exact h.declare hx
  set_rel := by
    rintro _ s t x _ n h ⟨rfl, hx⟩
    exact h.set hx n
  declareFunction_rel := by
    rintro _ s t x _ f _ _ h rfl ⟨rfl, hf⟩
    exact h.declareFunction x hf
  callBuiltin_rel := by
    rintro _ s t x _ ns h rfl
    exact h.callBuiltin x ns
  declares_inside _ := trivial
  opened_rel h := h.opened
  close_rel h := h.close

theorem apart_matched {z : String} (start : State × State) {a : Ast} (h : a.Omits z) :
    (Correspondence.apart z).Matched start a a := by
  have hself : (Correspondence.apart z).Matched start a ((a.mapChildren id).renameOwn id id) := by
    refine Correspondence.matched_mapChildren trivial (fun x hx => ⟨rfl, ?_⟩) (fun _ => rfl)
      (fun _ => rfl) (fun _ b hb => ⟨rfl, h.child hb⟩) fun params body hp hb =>
        ⟨by simp, ?_, h.child hb⟩
    · rintro rfl
      exact h.own hx
    · exact hp ▸ h.own
  rwa [Ast.mapChildren_id, Ast.renameOwn_id] at hself

/-- A variable that is mentioned nowhere in a tree nor in any function in reach is neither read nor
written by it: from two states that are the same but for the bindings of this variable the runs end
alike, in states that are again the same but for them, with the same lines printed since, and in
each run these bindings are as they were. -/
theorem unmentioned_untouched {z : String} {a : Ast} (ha : a.Omits z) {s t : State}
    (hs : s.EveryFunction (Function.Omits z))
    (hst : Chain.without z s.frames = Chain.without z t.frames) (steps : Nat) :
    (eval steps a s).Tied False Eq Eq
      (fun s' t' => Chain.without z s'.frames = Chain.without z t'.frames ∧
        Chain.only z s'.frames = Chain.only z s.frames ∧
        Chain.only z t'.frames = Chain.only z t.frames ∧
        ∃ said, s'.printed = said ++ s.printed ∧ t'.printed = said ++ t.printed)
      (eval steps a t) := by
  let c := Correspondence.apart z
  have hrespects : c.Respects (eval steps) (eval steps) := by
    refine c.eval_respects ?_ (Nat.le_refl steps) (.inr rfl)
    rintro start b _ ⟨rfl, hb⟩
    exact apart_matched start hb
  obtain ⟨hinner, houter⟩ := List.cons.inj hst
  have hstart : Apart z (s, t) s t := ⟨hinner, houter, rfl, rfl, ⟨[], rfl, rfl⟩, hs⟩
  refine (hrespects (s, t) a a ⟨rfl, ha⟩ s t hstart).mono (fun _ _ h => h)
    (fun _ _ h => h.eq fun _ _ hxy => hxy.1) fun u v h => ?_
  exact ⟨h.frames, h.first, h.second, h.printed⟩

/-- A function that assigns a variable of its caller, called where one of two states binds another
variable that neither the call nor the function mentions. -/
theorem callee_leaves_unmentioned :
    let a : Ast := .call "f" [.literal "2" none] none
    let f : Function := ⟨["y"], .assignment "x" (.reference "y" none) none⟩
    let s : State := ⟨⟨[("x", some 1), ("z", some 5)], [("f", f)]⟩, [], [], false, []⟩
    let t : State := ⟨⟨[("x", some 1)], [("f", f)]⟩, [], [[7]], true, []⟩
    a.Omits "z" ∧ s.EveryFunction (Function.Omits "z") ∧
      Chain.without "z" s.frames = Chain.without "z" t.frames ∧
      (eval 9 a s).Tied False Eq Eq
        (fun s' t' => Chain.without "z" s'.frames = Chain.without "z" t'.frames ∧
          Chain.only "z" s'.frames = [[("z", some 5)]] ∧ Chain.only "z" t'.frames = [[]] ∧
          ∃ said, s'.printed = said ∧ t'.printed = said ++ [[7]])
        (eval 9 a t) := by
  intro a f s t
  have ha : a.Omits "z" := by decide +kernel
  have hf : f.Omits "z" := ⟨by decide, by decide +kernel⟩
  have hs : s.EveryFunction (Function.Omits "z") := by
    simpa [State.EveryFunction, State.frames, s] using hf
  have hst : Chain.without "z" s.frames = Chain.without "z" t.frames := rfl
  refine ⟨ha, hs, hst,
    (unmentioned_untouched ha hs hst 9).mono (fun _ _ h => h) (fun _ _ h => h) ?_⟩
  rintro u v ⟨hframes, hfirst, hsecond, said, hsaid, hsaid'⟩
  exact ⟨hframes, hfirst, hsecond, said, by simpa [s] using hsaid, hsaid'⟩

end Bronti
