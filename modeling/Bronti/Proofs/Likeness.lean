import Bronti.Proofs.Correspondence
import Bronti.Proofs.Frames

/-!
States that are alike frame by frame. A likeness says which names and trees of one run stand for
which of another; frames are alike if they hold, in the same order, names that stand for one another
with the same values and with functions that are alike. Searching, storing and declaring keep this.
-/
namespace Bronti

/-- Bindings whose names and whose contents are related. -/
structure Bound {α β : Type} (names : String → String → Prop) (R : α → β → Prop)
    (p : String × α) (q : String × β) : Prop where
  name : names p.1 q.1
  content : R p.2 q.2

section Names

variable {α β : Type} {names : String → String → Prop} {R : α → β → Prop}

theorem lookup_rel (hn : Relator.BiUnique names) {ps : List (String × α)} {qs : List (String × β)}
    (h : List.Forall₂ (Bound names R) ps qs) {x y : String} (hxy : names x y) :
    Option.Rel R (ps.lookup x) (qs.lookup y) := by
  induction h with
  | nil => exact .none
  | @cons p q ps qs hpq _ ih =>
    obtain ⟨k, u⟩ := p
    obtain ⟨l, v⟩ := q
    have hkey : x = k ↔ y = l := Relator.rel_eq hn hxy hpq.name
    by_cases hx : x = k
    · have hy : y = l := hkey.mp hx
      simpa [List.lookup_cons, hx, hy] using Option.Rel.some hpq.content
    · have hy : y ≠ l := fun hy => hx (hkey.mpr hy)
      simpa [List.lookup_cons, beq_false_of_ne hx, beq_false_of_ne hy] using ih

theorem isSome_of_rel {o : Option α} {p : Option β} (h : Option.Rel R o p) :
    o.isSome = p.isSome := by
  cases h <;> rfl

theorem eq_of_rel {o p : Option α} (h : Option.Rel Eq o p) : o = p := by
  cases h with
  | some h => rw [h]
  | none => rfl

theorem store_rel (hn : Relator.BiUnique names) {ps qs : List (String × Option Int)}
    (h : List.Forall₂ (Bound names Eq) ps qs) {x y : String} (hxy : names x y) (n : Int) :
    List.Forall₂ (Bound names Eq) (Frame.store x n ps) (Frame.store y n qs) := by
  induction h with
  | nil => exact .nil
  | @cons p q ps qs hpq hrest ih =>
    have hkey : p.1 = x ↔ q.1 = y := Relator.rel_eq hn hpq.name hxy
    simp only [Frame.store]
    by_cases hx : p.1 = x
    · rw [if_pos hx, if_pos (hkey.mp hx)]
      exact .cons ⟨hpq.name, rfl⟩ hrest
    · rw [if_neg hx, if_neg fun hy => hx (hkey.mpr hy)]
      exact .cons hpq ih

theorem repeatedFrom_rel (hn : Relator.BiUnique names) {seen seen' again again' xs ys : List String}
    (hseen : List.Forall₂ names seen seen') (hagain : List.Forall₂ names again again')
    (h : List.Forall₂ names xs ys) :
    List.Forall₂ names (repeatedFrom seen again xs) (repeatedFrom seen' again' ys) := by
  induction h generalizing seen seen' again again' with
  | nil => exact List.forall₂_reverse_iff.mpr hagain
  | @cons x y xs ys hxy _ ih =>
    have hs : x ∈ seen ↔ y ∈ seen' := List.rel_mem hn hxy hseen
    have ha : x ∈ again ↔ y ∈ again' := List.rel_mem hn hxy hagain
    simp only [repeatedFrom, hs, ha]
    split
    · exact ih (.cons hxy hseen) (.cons hxy hagain)
    · exact ih (.cons hxy hseen) hagain

theorem repeated_isEmpty (hn : Relator.BiUnique names) {xs ys : List String}
    (h : List.Forall₂ names xs ys) : (repeated xs).isEmpty = (repeated ys).isEmpty := by
  have hr := repeatedFrom_rel hn .nil .nil h
  unfold repeated
  generalize repeatedFrom [] [] xs = as at hr ⊢
  generalize repeatedFrom [] [] ys = bs at hr ⊢
  cases hr <;> rfl

end Names

/-- What stands for what in two trees. Names stand for one another one to one, and only the name of
the function that is built in stands for itself. -/
structure Likeness where
  late : Prop
  vars : String → String → Prop
  funs : String → String → Prop
  spans : Option Span → Option Span → Prop
  tree : Ast → Ast → Prop
  vars_unique : Relator.BiUnique vars
  funs_unique : Relator.BiUnique funs
  builtin_iff {x y : String} : funs x y → (x = builtinName ↔ y = builtinName)
  span_rel {a b : Ast} : tree a b → spans a.span b.span

namespace Likeness

variable {l : Likeness} {x y : String}

structure Functions (l : Likeness) (f g : Function) : Prop where
  params : List.Forall₂ l.vars f.params g.params
  body : l.tree f.body g.body

structure Frames (l : Likeness) (f g : Frame) : Prop where
  vars : List.Forall₂ (Bound l.vars Eq) f.vars g.vars
  funs : List.Forall₂ (Bound l.funs l.Functions) f.funs g.funs

/-- States that are alike and have `depth` frames under the innermost one. -/
structure States (l : Likeness) (depth : Nat) (s t : State) : Prop where
  inner : l.Frames s.inner t.inner
  outer : List.Forall₂ l.Frames s.outer t.outer
  depth : s.outer.length = depth
  printed : s.printed = t.printed

theorem Frames.empty (l : Likeness) : l.Frames .empty .empty := ⟨.nil, .nil⟩

theorem Frames.hasVariable {f g : Frame} (h : l.Frames f g) (hxy : l.vars x y) :
    f.hasVariable x = g.hasVariable y :=
  isSome_of_rel (lookup_rel l.vars_unique h.vars hxy)

theorem Frames.hasFunction {f g : Frame} (h : l.Frames f g) (hxy : l.funs x y) :
    f.hasFunction x = g.hasFunction y :=
  isSome_of_rel (lookup_rel l.funs_unique h.funs hxy)

theorem Frames.setVariable {f g : Frame} (h : l.Frames f g) (hxy : l.vars x y) (n : Int) :
    l.Frames (f.setVariable x n) (g.setVariable y n) :=
  ⟨store_rel l.vars_unique h.vars hxy n, h.funs⟩

theorem Frames.addVariable {f g : Frame} (h : l.Frames f g) (hxy : l.vars x y) :
    l.Frames (f.addVariable x) (g.addVariable y) :=
  ⟨List.rel_append h.vars (.cons ⟨hxy, rfl⟩ .nil), h.funs⟩

theorem Frames.addFunction {f g : Frame} (h : l.Frames f g) (hxy : l.funs x y) {k k' : Function}
    (hk : l.Functions k k') : l.Frames (f.addFunction x k) (g.addFunction y k') :=
  ⟨h.vars, List.rel_append h.funs (.cons ⟨hxy, hk⟩ .nil)⟩

section Chains

variable {fs gs : Chain}

theorem isDefined_eq (h : List.Forall₂ l.Frames fs gs) (hxy : l.vars x y) :
    Chain.isDefined fs x = Chain.isDefined gs y := by
  induction h with
  | nil => rfl
  | cons hfg _ ih => rw [Chain.isDefined_cons, Chain.isDefined_cons, hfg.hasVariable hxy, ih]

theorem value_eq (h : List.Forall₂ l.Frames fs gs) (hxy : l.vars x y) :
    Chain.value? fs x = Chain.value? gs y := by
  induction h with
  | nil => rfl
  | cons hfg _ ih =>
    simp only [Chain.value?, eq_of_rel (lookup_rel l.vars_unique hfg.vars hxy), ih]

theorem function_rel (h : List.Forall₂ l.Frames fs gs) (hxy : l.funs x y) :
    Option.Rel l.Functions (Chain.function? fs x) (Chain.function? gs y) := by
  induction h with
  | nil => exact .none
  | @cons f g _ _ hfg _ ih =>
    have hfound := lookup_rel l.funs_unique hfg.funs hxy
    simp only [Chain.function?]
    generalize f.funs.lookup x = o at hfound ⊢
    generalize g.funs.lookup y = p at hfound ⊢
    cases hfound with
    | some h => exact .some h
    | none => exact ih

theorem set_rel (h : List.Forall₂ l.Frames fs gs) (hxy : l.vars x y) (n : Int) :
    Option.Rel (List.Forall₂ l.Frames) (Chain.set? x n fs) (Chain.set? y n gs) := by
  induction h with
  | nil => exact .none
  | @cons f g fs gs hfg hrest ih =>
    simp only [Chain.set?, hfg.hasVariable hxy]
    split
    · exact .some (.cons (hfg.setVariable hxy n) hrest)
    · generalize Chain.set? x n fs = o at ih ⊢
      generalize Chain.set? y n gs = p at ih ⊢
      cases ih with
      | some h => exact .some (.cons hfg h)
      | none => exact .none

end Chains

namespace States

variable {s t : State} {depth : Nat}

theorem frames (h : l.States depth s t) : List.Forall₂ l.Frames s.frames t.frames :=
  .cons h.inner h.outer

theorem initial (l : Likeness) (tracing tracing' : Bool) :
    l.States 0 (.initial tracing) (.initial tracing') :=
  ⟨.empty l, .nil, rfl, rfl⟩

theorem visit_first (h : l.States depth s t) (a : Ast) : l.States depth (s.visit a) t := by
  unfold State.visit
  split
  · exact ⟨h.inner, h.outer, h.depth, h.printed⟩
  · exact h

theorem visit_second (h : l.States depth s t) (a : Ast) : l.States depth s (t.visit a) := by
  unfold State.visit
  split
  · exact ⟨h.inner, h.outer, h.depth, h.printed⟩
  · exact h

theorem declare (h : l.States depth s t) (hxy : l.vars x y) :
    Option.Rel (l.States depth) (s.declare? x) (t.declare? y) := by
  simp only [State.declare?, h.inner.hasVariable hxy]
  split
  · exact .none
  · exact .some ⟨h.inner.addVariable hxy, h.outer, h.depth, h.printed⟩

theorem declareFunction (h : l.States depth s t) (hxy : l.funs x y) {f g : Function}
    (hfg : l.Functions f g) :
    Option.Rel (l.States depth) (s.declareFunction? x f) (t.declareFunction? y g) := by
  simp only [State.declareFunction?, h.inner.hasFunction hxy]
  split
  · exact .none
  · exact .some ⟨h.inner.addFunction hxy hfg, h.outer, h.depth, h.printed⟩

theorem set (h : l.States depth s t) (hxy : l.vars x y) (n : Int) :
    Option.Rel (l.States depth) (s.set? x n) (t.set? y n) := by
  simp only [State.set?, h.inner.hasVariable hxy]
  split
  · exact .some ⟨h.inner.setVariable hxy n, h.outer, h.depth, h.printed⟩
  · have hset := set_rel h.outer hxy n
    have hlength : ∀ fs, Chain.set? x n s.outer = some fs → fs.length = depth := fun fs hfs =>
      (Chain.kept_set hfs).length_eq.symm.trans h.depth
    generalize Chain.set? x n s.outer = o at hset hlength ⊢
    generalize Chain.set? y n t.outer = p at hset ⊢
    cases hset with
    | some hfs => exact .some ⟨h.inner, hfs, hlength _ rfl, h.printed⟩
    | none => exact .none

theorem callBuiltin (h : l.States depth s t) (hxy : l.funs x y) (ns : List Int) :
    Option.Rel (l.States depth) (s.callBuiltin? x ns) (t.callBuiltin? y ns) := by
  simp only [State.callBuiltin?, l.builtin_iff hxy]
  split
  · exact .some ⟨h.inner, h.outer, h.depth, congrArg (ns :: ·) h.printed⟩
  · exact .none

theorem opened (h : l.States depth s t) : l.States (depth + 1) s.opened t.opened :=
  ⟨.empty l, h.frames, congrArg Nat.succ h.depth, h.printed⟩

theorem close (h : l.States (depth + 1) s t) :
    ∃ u v, s.close? = some u ∧ t.close? = some v ∧ l.States depth u v := by
  have houter := h.outer
  have hdepth := h.depth
  unfold State.close?
  generalize s.outer = fs at houter hdepth
  generalize t.outer = gs at houter
  cases houter with
  | nil => cases hdepth
  | cons hfg hrest =>
    exact ⟨_, _, rfl, rfl, hfg, hrest, Nat.succ.inj hdepth, h.printed⟩

end States

/-- Alike states, each world being the number of frames under the innermost one. -/
def correspondence (l : Likeness) : Correspondence Nat where
  late := l.late
  vars := l.vars
  funs := l.funs
  spans := l.spans
  functions := l.Functions
  tree _ := l.tree
  state := l.States
  inside depth := depth + 1
  declares _ := True
  span_rel := l.span_rel
  repeated_eq := repeated_isEmpty l.vars_unique
  params_rel h := h.params
  body_rel _ h := h.body
  visit_first a h := h.visit_first a
  visit_second a h := h.visit_second a
  value_eq h := value_eq h.frames
  isDefined_eq h := isDefined_eq h.frames
  function_rel h := function_rel h.frames
  declare_rel _ h := h.declare
  set_rel n h hxy := h.set hxy n
  declareFunction_rel _ h hxy hfg := h.declareFunction hxy hfg
  callBuiltin_rel ns h hxy := h.callBuiltin hxy ns
  declares_inside _ := trivial
  opened_rel h := h.opened
  close_rel h := h.close

/-- Programs whose children are alike run alike from the initial state, and print the same. -/
theorem evaluate_tied {n m : Nat} (hr : l.correspondence.Respects (eval n) (eval m))
    (tracing : Bool) (tree tree' : Ast) (h : List.Forall₂ l.tree tree.children tree'.children) :
    (evaluate n tracing tree).Tied l.late Eq l.correspondence.stop
      (fun s t => s.printed = t.printed) (evaluate m tracing tree') :=
  (Correspondence.evaluate_tied hr (States.initial l tracing tracing) tree tree' h).mono
    (fun _ _ h => h) (fun _ _ h => h) fun _ _ h => h.printed

end Likeness

end Bronti
