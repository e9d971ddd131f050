import Bronti.Proofs.Returning

/-!
Bindings of variables and where they stand. A value is stored in the slot of the innermost variable
of its name and nowhere else; what is evaluated between the search for the variable and the store
never moves this slot, so that no assignment is lost.
-/
namespace Bronti

/-- Where the binding of a variable stands: in which frame, counted from the innermost one outward,
and at which place in it. -/
structure Slot where
  frame : Nat
  number : Nat
deriving DecidableEq, Repr

/-- The slot as it is seen from inside one more frame. -/
def Slot.outward (p : Slot) : Slot := ⟨p.frame + 1, p.number⟩

theorem exists_idxOf? {x : String} {xs : List String} (h : x ∈ xs) : ∃ i, xs.idxOf? x = some i :=
  Option.isSome_iff_exists.mp (List.isSome_idxOf?.mpr h)

/-- A value that is stored goes to the place of the first variable of the name. -/
theorem Frame.store_eq_set {x : String} {vars : List (String × Option Int)} {i : Nat}
    (h : (names vars).idxOf? x = some i) (n : Int) :
    Frame.store x n vars = vars.set i (x, some n) := by
  induction vars generalizing i with
  | nil => cases h
  | cons b vars ih =>
    obtain ⟨y, v⟩ := b
    simp only [names, List.map_cons, List.idxOf?_cons, beq_iff_eq] at h
    split at h
    · next hy =>
      cases h
      simp [Frame.store, hy]
    · next hy =>
      obtain ⟨j, hj, rfl⟩ := Option.map_eq_some_iff.mp h
      simp [Frame.store, hy, ih hj]

theorem Frame.lookup_of_idxOf? {x : String} {vars : List (String × Option Int)} {i : Nat}
    (h : (names vars).idxOf? x = some i) :
    ∃ v, vars[i]? = some (x, v) ∧ vars.lookup x = some v := by
  induction vars generalizing i with
  | nil => cases h
  | cons b vars ih =>
    obtain ⟨y, v⟩ := b
    simp only [names, List.map_cons, List.idxOf?_cons, beq_iff_eq] at h
    split at h
    · next hy =>
      cases h
      exact ⟨v, by rw [← hy]; rfl, by simp [hy]⟩
    · next hy =>
      obtain ⟨j, hj, rfl⟩ := Option.map_eq_some_iff.mp h
      obtain ⟨w, hw, hlookup⟩ := ih hj
      have hne : (x == y) = false := by simpa using Ne.symm hy
      exact ⟨w, hw, by rw [List.lookup_cons, hne, ← hlookup]⟩

namespace Chain

/-- The binding that stands in a slot: a name, and a value if it is set. -/
def binding? (fs : Chain) (p : Slot) : Option (String × Option Int) :=
  fs[p.frame]?.bind fun f => f.vars[p.number]?

/-- The slot of the innermost variable of a name. -/
def slot? (x : String) : Chain → Option Slot
  | [] => none
  | f :: fs =>
    match (names f.vars).idxOf? x with
    | some i => some ⟨0, i⟩
    | none => (slot? x fs).map Slot.outward

/-- From the first chain to the second a value has come into the slot `p`, which is that of the
innermost variable of the name before and after; no other variable and no function has changed. -/
structure Stores (x : String) (n : Int) (p : Slot) (fs gs : Chain) : Prop where
  before : fs.slot? x = some p
  after : gs.slot? x = some p
  value : gs.binding? p = some (x, some n)
  others : ∀ q, q ≠ p → gs.binding? q = fs.binding? q
  functions : gs.map Frame.funs = fs.map Frame.funs

variable {x : String} {n : Int} {p : Slot} {f : Frame} {fs gs : Chain}

theorem slot?_of_mem {i : Nat} (h : (names f.vars).idxOf? x = some i) (fs : Chain) :
    slot? x (f :: fs) = some ⟨0, i⟩ := by
  simp only [slot?, h]

theorem slot?_of_not_mem (h : x ∉ names f.vars) (fs : Chain) :
    slot? x (f :: fs) = (slot? x fs).map Slot.outward := by
  simp only [slot?, List.idxOf?_eq_none_iff.mpr h]

theorem slot?_isSome (x : String) (fs : Chain) : (slot? x fs).isSome = isDefined fs x := by
  induction fs with
  | nil => rfl
  | cons f fs ih =>
    rw [isDefined_cons]
    by_cases hx : x ∈ names f.vars
    · obtain ⟨i, hi⟩ := exists_idxOf? hx
      rw [slot?_of_mem hi, (f.hasVariable_iff x).mpr hx]
      rfl
    · rw [slot?_of_not_mem hx, Option.isSome_map, ih, Frame.hasVariable_of_not_mem hx,
        Bool.false_or]

/-- In the slot of a variable stands what is read under its name. -/
theorem binding?_of_slot? (h : fs.slot? x = some p) : fs.binding? p = some (x, fs.value? x) := by
  induction fs generalizing p with
  | nil => cases h
  | cons f fs ih =>
    by_cases hx : x ∈ names f.vars
    · obtain ⟨i, hi⟩ := exists_idxOf? hx
      obtain ⟨v, hv, hlookup⟩ := Frame.lookup_of_idxOf? hi
      rw [slot?_of_mem hi] at h
      cases h
      rw [value?, hlookup]
      exact hv
    · have hnone : f.vars.lookup x = none := by
        simpa [Frame.hasVariable] using Frame.hasVariable_of_not_mem hx
      rw [slot?_of_not_mem hx] at h
      obtain ⟨p', hp', rfl⟩ := Option.map_eq_some_iff.mp h
      rw [value?, hnone]
      exact ih hp'

/-- A variable keeps its slot as long as the frames are kept. -/
theorem slot?_of_kept (h : List.Forall₂ Frame.Kept fs gs) (x : String) :
    slot? x gs = slot? x fs := by
  induction h with
  | nil => rfl
  | cons hfg _ ih => simp only [slot?, names_of_stays hfg.vars, ih]

theorem Stores.inner {i : Nat} (h : (names f.vars).idxOf? x = some i) (n : Int) (fs : Chain) :
    Stores x n ⟨0, i⟩ (f :: fs) (f.setVariable x n :: fs) where
  before := slot?_of_mem h fs
  after := by
    apply slot?_of_mem
    rw [names_of_stays (Frame.Kept.setVariable f x n).vars, h]
  value := by
    have hlt : i < f.vars.length := by
      simpa [names] using (List.idxOf?_eq_some_iff.mp h).1
    simp [binding?, Frame.setVariable, Frame.store_eq_set h, hlt]
  others := by
    rintro ⟨k, j⟩ hq
    cases k with
    | zero =>
      have hij : i ≠ j := fun hij => hq (by rw [hij])
      simp [binding?, Frame.setVariable, Frame.store_eq_set h, List.getElem?_set_ne hij]
    | succ k => rfl
  functions := rfl

theorem Stores.outward (h : Stores x n p fs gs) (hx : x ∉ names f.vars) :
    Stores x n p.outward (f :: fs) (f :: gs) where
  before := by rw [slot?_of_not_mem hx, h.before, Option.map_some]
  after := by rw [slot?_of_not_mem hx, h.after, Option.map_some]
  value := h.value
  others := by
    rintro ⟨k, j⟩ hq
    cases k with
    | zero => rfl
    | succ k => exact h.others ⟨k, j⟩ fun hp => hq (by rw [← hp]; rfl)
  functions := by rw [List.map_cons, List.map_cons, h.functions]

/-- A value is stored in the slot of the innermost variable of its name. -/
theorem set?_stores (h : fs.slot? x = some p) (n : Int) :
    ∃ gs, Chain.set? x n fs = some gs ∧ Stores x n p fs gs := by
  induction fs generalizing p with
  | nil => cases h
  | cons f fs ih =>
    by_cases hx : x ∈ names f.vars
    · obtain ⟨i, hi⟩ := exists_idxOf? hx
      rw [slot?_of_mem hi] at h
      cases h
      exact ⟨_, if_pos ((f.hasVariable_iff x).mpr hx), .inner hi n fs⟩
    · rw [slot?_of_not_mem hx] at h
      obtain ⟨p', hp', rfl⟩ := Option.map_eq_some_iff.mp h
      obtain ⟨gs, hgs, hstores⟩ := ih hp'
      refine ⟨f :: gs, ?_, hstores.outward hx⟩
      rw [Chain.set?, Frame.hasVariable_of_not_mem hx, hgs]
      rfl

/-- A variable that is declared stands behind the others of its frame. -/
theorem slot?_addVariable (hx : x ∉ names f.vars) (fs : Chain) :
    slot? x (f.addVariable x :: fs) = some ⟨0, f.vars.length⟩ := by
  apply slot?_of_mem
  rw [Frame.addVariable, names_append, List.idxOf?_eq_some_iff]
  refine ⟨by simp [names], by simp [names], ?_⟩
  intro j hj hjx
  have hlt : j < (names f.vars).length := by simpa [names] using hj
  rw [List.getElem_append_left hlt] at hjx
  exact hx (hjx ▸ List.getElem_mem hlt)

end Chain

namespace State

variable {x : String} {s t : State}

/-- The slot of the variable that is declared next. -/
def newSlot (s : State) : Slot := ⟨0, s.inner.vars.length⟩

theorem binding?_newSlot (s : State) : s.frames.binding? s.newSlot = none := by
  simp [newSlot, frames, Chain.binding?]

theorem newSlot_visit (s : State) (a : Ast) : (s.visit a).newSlot = s.newSlot := by
  rw [newSlot, (List.cons.inj (s.frames_visit a)).1]
  rfl

theorem slot?_declare (h : s.declare? x = some t) : t.frames.slot? x = some s.newSlot := by
  unfold declare? at h
  split at h
  · cases h
  · next hx =>
    cases h
    rw [Frame.hasVariable_iff] at hx
    exact Chain.slot?_addVariable hx s.outer

end State

/-! ## What a statement stores -/

open Run Eval

theorem set_stores {x : String} {p : Slot} {s : State} (h : s.frames.slot? x = some p) (n : Int) :
    ∃ t, set x n s = .done true t ∧ Chain.Stores x n p s.frames t.frames := by
  obtain ⟨fs, hfs, hstores⟩ := Chain.set?_stores h n
  have hframes := s.frames_set x n
  rw [hfs] at hframes
  obtain ⟨t, ht, rfl⟩ := Option.map_eq_some_iff.mp hframes
  exact ⟨t, attempt_done ht, hstores⟩

/-- From the state `s` a node is evaluated to an integer, and this is then stored, with success, in
the slot `p` of a variable. -/
def Eval.Puts (rec : Ast → Run Result) (e : Ast) (x : String) (n : Int) (p : Slot) (s u : State) :
    Prop :=
  ∃ t, intWith rec e s = .done n t ∧ set x n t = .done true u ∧
    Chain.Stores x n p t.frames u.frames

theorem Eval.Puts.read {rec : Ast → Run Result} {e : Ast} {x : String} {n : Int} {p : Slot}
    {s u : State} (h : Puts rec e x n p s u) : u.frames.value? x = some n := by
  obtain ⟨t, -, -, hstores⟩ := h
  have hread := (Chain.binding?_of_slot? hstores.after).symm.trans hstores.value
  simpa using hread

section Nodes

variable {rec : Ast → Run Result}

/-- Whatever is evaluated first, the integer that comes of it is stored in the slot that was that of
the variable before. -/
theorem puts_ends (hr : ∀ a, Disciplined (rec a)) {x : String} (e : Ast) {p : Slot} {s : State}
    (hslot : s.frames.slot? x = some p) :
    ((do let n ← intWith rec e; let _ ← set x n; return .nothing : Run Result) s).Ends
      (fun r u => r = .nothing ∧ ∃ n, Puts rec e x n p s u)
      (fun stop u => intWith rec e s = .stopped stop u) := by
  apply bind_ends (Outcome.ends_self (intWith rec e s))
  intro n t ht
  -- calls on the way may declare and assign, but in the end the frames are kept, and so is the slot
  have hkept : s.Kept t := (int_keeping hr e s).of_done ht
  obtain ⟨u, hu, hstores⟩ := set_stores ((Chain.slot?_of_kept hkept x).trans hslot) n
  rw [bind_of_done hu]
  exact ⟨rfl, n, t, ht, hu, hstores⟩

theorem assignment_puts (hr : ∀ a, Disciplined (rec a)) (x : String) (e : Ast)
    (span : Option Span) (s : State) :
    (assignmentWith rec x e span s).Ends
      (fun r u => r = .nothing ∧ ∃ p n, s.frames.slot? x = some p ∧ Puts rec e x n p s u)
      (fun stop u => u = s ∨ intWith rec e s = .stopped stop u) := by
  have hdefined : isDefined x s = .done (Chain.isDefined s.frames x) s := rfl
  rw [assignmentWith, bind_of_done hdefined]
  cases hd : Chain.isDefined s.frames x with
  | false => exact .inl rfl
  | true =>
    rw [← Chain.slot?_isSome] at hd
    obtain ⟨p, hp⟩ := Option.isSome_iff_exists.mp hd
    refine (puts_ends hr e hp).mono ?_ fun _ _ h => .inr h
    rintro r u ⟨hnothing, n, hputs⟩
    exact ⟨hnothing, p, n, hp, hputs⟩

theorem declaration_puts (hr : ∀ a, Disciplined (rec a)) (x : String) (e : Ast)
    (span : Option Span) (s : State) :
    (declarationWith rec x (some e) span s).Ends
      (fun r u => r = .nothing ∧ ∃ t n, declare x s = .done true t ∧ Puts rec e x n s.newSlot t u)
      (fun stop u => u = s ∨
        ∃ t, declare x s = .done true t ∧ intWith rec e t = .stopped stop u) := by
  cases ht : s.declare? x with
  | none =>
    have hnot : declare x s = .done false s := by simp [declare, attempt, ht]
    rw [declarationWith, bind_of_done hnot]
    exact .inl rfl
  | some t =>
    have hdeclared : declare x s = .done true t := attempt_done ht
    rw [declarationWith, bind_of_done hdeclared]
    refine (puts_ends hr e (State.slot?_declare ht)).mono ?_ fun _ _ h => .inr ⟨t, hdeclared, h⟩
    rintro r u ⟨hnothing, n, hputs⟩
    exact ⟨hnothing, t, n, hdeclared, hputs⟩

end Nodes

/-- No assignment is lost. Where an assignment or a declaration with an initializer ends without an
error, the value was evaluated and then stored with success: by an assignment in the slot of the
variable that was the innermost one of this name before, by a declaration in a new slot of the
innermost frame. It is what is read under the name from then on, and every other binding is as the
evaluation of the value left it. -/
theorem no_assignment_lost (steps : Nat) (x : String) (e : Ast) (span : Option Span) (s : State) :
    (eval (steps + 1) (.assignment x e span) s).Ends
      (fun r u => r = .nothing ∧ ∃ p n, s.frames.slot? x = some p ∧
        Puts (eval steps) e x n p (s.visit (.assignment x e span)) u ∧
        u.frames.value? x = some n)
      (fun _ _ => True) ∧
    (eval (steps + 1) (.declaration x (some e) span) s).Ends
      (fun r u => r = .nothing ∧ s.frames.binding? s.newSlot = none ∧
        ∃ t n, declare x (s.visit (.declaration x (some e) span)) = .done true t ∧
          Puts (eval steps) e x n s.newSlot t u ∧ u.frames.value? x = some n)
      (fun _ _ => True) := by
  refine ⟨?_, ?_⟩
  · refine (assignment_puts (eval_disciplined steps) x e span _).mono ?_ fun _ _ _ => trivial
    rintro r u ⟨hr, p, n, hp, hputs⟩
    rw [State.frames_visit] at hp
    exact ⟨hr, p, n, hp, hputs, hputs.read⟩
  · refine (declaration_puts (eval_disciplined steps) x e span _).mono ?_ fun _ _ _ => trivial
    rintro r u ⟨hr, t, n, ht, hputs⟩
    rw [State.newSlot_visit] at hputs
    exact ⟨hr, s.binding?_newSlot, t, n, ht, hputs, hputs.read⟩

end Bronti
