import Bronti.Proofs.Decimal
import Bronti.Proofs.Frames
import Bronti.Proofs.Invariants

/-!
Every integer that a program holds or shows is a word. Literals are words and arithmetic wraps, so
that the variables of all frames, the results and the printed lines hold words if the variables do
at first.
-/
namespace Bronti

/-- Every variable of the frame that is set holds a word. -/
def Frame.InRange (f : Frame) : Prop := ∀ x n, (x, some n) ∈ f.vars → Word.InRange n

/-- Every variable that is set, in whatever frame, holds a word. -/
def State.InRange (s : State) : Prop := ∀ f ∈ s.frames, f.InRange

/-- What is printed in `t` and was not yet in `s` are lines of words. -/
def State.PrintsWords (s t : State) : Prop :=
  ∃ lines, t.printed = lines ++ s.printed ∧ ∀ line ∈ lines, ∀ n ∈ line, Word.InRange n

namespace Frame

theorem mem_store {x : String} {n : Int} {vars : List (String × Option Int)}
    {b : String × Option Int} (h : b ∈ store x n vars) : b ∈ vars ∨ b.2 = some n := by
  induction vars with
  | nil => cases h
  | cons c vars ih =>
    obtain ⟨y, v⟩ := c
    simp only [store] at h
    split at h
    · rcases List.mem_cons.mp h with rfl | h
      · exact .inr rfl
      · exact .inl (List.mem_cons_of_mem _ h)
    · rcases List.mem_cons.mp h with rfl | h
      · exact .inl (by simp)
      · exact (ih h).imp_left (List.mem_cons_of_mem _)

namespace InRange

variable {f : Frame}

theorem empty : Frame.empty.InRange := by simp [InRange, Frame.empty]

theorem setVariable (hf : f.InRange) (x : String) {n : Int} (hn : Word.InRange n) :
    (f.setVariable x n).InRange := by
  intro y m hm
  rcases mem_store hm with hm | hm
  · exact hf y m hm
  · rwa [Option.some.inj hm]

theorem addVariable (hf : f.InRange) (x : String) : (f.addVariable x).InRange := by
  intro y n hn
  rcases List.mem_append.mp hn with hn | hn
  · exact hf y n hn
  · simp at hn

end InRange

end Frame

namespace Chain

theorem inRange_of_value {fs : Chain} (hfs : ∀ f ∈ fs, f.InRange) {x : String} {n : Int}
    (h : fs.value? x = some n) : Word.InRange n := by
  induction fs with
  | nil => cases h
  | cons f fs ih =>
    obtain ⟨hf, hfs⟩ := List.forall_mem_cons.mp hfs
    simp only [Chain.value?] at h
    split at h
    · next v hv =>
      subst h
      obtain ⟨before, after, hvars, -⟩ := List.lookup_eq_some_iff.mp hv
      exact hf x n (by simp [hvars])
    · exact ih hfs h

theorem inRange_of_set {fs gs : Chain} (hfs : ∀ f ∈ fs, f.InRange) {x : String} {n : Int}
    (hn : Word.InRange n) (h : Chain.set? x n fs = some gs) : ∀ g ∈ gs, g.InRange := by
  induction fs generalizing gs with
  | nil => cases h
  | cons f fs ih =>
    obtain ⟨hf, hfs⟩ := List.forall_mem_cons.mp hfs
    simp only [Chain.set?] at h
    split at h
    · cases h
      exact List.forall_mem_cons.mpr ⟨hf.setVariable x hn, hfs⟩
    · obtain ⟨hs, hhs, rfl⟩ := Option.map_eq_some_iff.mp h
      exact List.forall_mem_cons.mpr ⟨hf, ih hfs hhs⟩

end Chain

namespace State

variable {s t u : State} {x : String}

namespace InRange

theorem initial (tracing : Bool) : (State.initial tracing).InRange := by
  simp [InRange, State.initial, frames, Frame.InRange.empty]

theorem of_frames (hs : s.InRange) (h : t.frames = s.frames) : t.InRange := by
  unfold InRange
  rwa [h]

theorem declare (hs : s.InRange) (h : s.declare? x = some t) : t.InRange :=
  forall_frames_declare hs h fun hinner => hinner.addVariable x

theorem set (hs : s.InRange) {n : Int} (hn : Word.InRange n) (h : s.set? x n = some t) :
    t.InRange := by
  have hframes := s.frames_set x n
  rw [h] at hframes
  exact Chain.inRange_of_set hs hn hframes.symm

theorem declareFunction (hs : s.InRange) {g : Function} (h : s.declareFunction? x g = some t) :
    t.InRange := forall_frames_declareFunction hs h id

theorem opened (hs : s.InRange) : s.opened.InRange := forall_frames_opened hs .empty

theorem close (hs : s.InRange) (h : s.close? = some t) : t.InRange := forall_frames_close hs h

end InRange

namespace PrintsWords

theorem refl (s : State) : s.PrintsWords s := ⟨[], rfl, by simp⟩

theorem of_printed (hs : s.PrintsWords t) (h : u.printed = t.printed) : s.PrintsWords u := by
  unfold PrintsWords
  rwa [h]

theorem callBuiltin (hs : s.PrintsWords t) {ns : List Int} (hns : ∀ n ∈ ns, Word.InRange n)
    (h : t.callBuiltin? x ns = some u) : s.PrintsWords u := by
  obtain ⟨lines, hprinted, hlines⟩ := hs
  unfold State.callBuiltin? at h
  split at h
  · cases h
    exact ⟨ns :: lines, congrArg (ns :: ·) hprinted, List.forall_mem_cons.mpr ⟨hns, hlines⟩⟩
  · cases h

end PrintsWords

end State

/-- States that hold words, and have printed lines of words since `s`. -/
def Invariant.words (s : State) : Invariant where
  state t := t.InRange ∧ s.PrintsWords t
  tree _ := True
  value := Word.InRange
  fault _ := True
  child _ _ := trivial
  own_fault _ _ := trivial
  last_frame := trivial
  zero := by decide
  literal := inRange_of_literalValue
  arithmetic hn _ _ := hn.inRange
  visited a ht := ⟨ht.1.of_frames (State.frames_visit _ a), ht.2.of_printed (State.printed_visit _ a)⟩
  stored ht hn := Chain.inRange_of_value ht.1 hn
  body _ _ := trivial
  declared ht hu := ⟨ht.1.declare hu, ht.2.of_printed (State.printed_declare hu)⟩
  assigned ht hn hu := ⟨ht.1.set hn hu, ht.2.of_printed (State.printed_set hu)⟩
  defined ht _ hu := ⟨ht.1.declareFunction hu, ht.2.of_printed (State.printed_declareFunction hu)⟩
  printed ht hns hu := ⟨ht.1.of_frames (State.frames_callBuiltin hu), ht.2.callBuiltin hns hu⟩
  opened ht := ⟨ht.1.opened, ht.2.of_printed rfl⟩
  closed ht hu := ⟨ht.1.close hu, ht.2.of_printed (State.printed_close hu)⟩

/-- Every integer that a program holds or shows is a word. From a state whose variables hold words
any tree ends, if it does, in such a state, with a word if the result has an integer, and has
printed words only, also where it breaks off; and so does any tree as a program. -/
theorem integers_stay_words :
    (∀ (steps : Nat) (a : Ast) (s : State), s.InRange →
      (eval steps a s).Ends
        (fun r t => r.Holds Word.InRange ∧ t.InRange ∧ s.PrintsWords t)
        (fun _ t => t.InRange ∧ s.PrintsWords t)) ∧
    ∀ (steps : Nat) (tracing : Bool) (tree : Ast),
      (evaluate steps tracing tree).Ends
        (fun n t => Word.InRange n ∧ t.InRange ∧ (State.initial tracing).PrintsWords t)
        (fun _ t => t.InRange ∧ (State.initial tracing).PrintsWords t) := by
  refine ⟨fun steps a s hs => ?_, fun steps tracing tree => ?_⟩
  · have hkept := (Invariant.words s).eval_keeps steps a trivial s ⟨hs, .refl s⟩
    exact hkept.mono (fun _ _ h => ⟨h.2, h.1⟩) fun _ _ h => h.1
  · have htrees : ∀ a ∈ tree.children, (Invariant.words (.initial tracing)).tree a :=
      fun _ _ => trivial
    have hkept := Invariant.evaluate_keeps _ htrees (fun _ => trivial)
      ⟨.initial tracing, .refl _⟩ steps
    exact hkept.mono (fun _ _ h => ⟨h.2, h.1⟩) fun _ _ h => h.1

/-- The least word, divided by minus one, is printed and returned. -/
theorem overflows_stay_words :
    ∃ t, eval 20 (.block
        [.statement (.call "println"
            [.operation (.reference "x" none) "/" (.reference "y" none) none] none) none,
          .result (.operation (.reference "x" none) "/" (.reference "y" none) none) none] none)
        ⟨⟨[("x", some Word.least), ("y", some (-1))], []⟩, [], [], false, []⟩ =
        .done (.returned Word.least) t ∧
      t.printed = [[Word.least]] ∧ t.InRange ∧ Word.InRange Word.least := by
  have hrun : ∃ t, eval 20 (.block
        [.statement (.call "println"
            [.operation (.reference "x" none) "/" (.reference "y" none) none] none) none,
          .result (.operation (.reference "x" none) "/" (.reference "y" none) none) none] none)
        ⟨⟨[("x", some Word.least), ("y", some (-1))], []⟩, [], [], false, []⟩ =
        .done (.returned Word.least) t ∧ t.printed = [[Word.least]] := ⟨_, rfl, rfl⟩
  obtain ⟨t, hdone, hprinted⟩ := hrun
  have hframe : Frame.InRange ⟨[("x", some Word.least), ("y", some (-1))], []⟩ := by
    intro x n hn
    simp only [List.mem_cons, Prod.mk.injEq, Option.some.injEq, List.not_mem_nil, or_false] at hn
    obtain ⟨-, rfl⟩ | ⟨-, rfl⟩ := hn
    · decide
    · decide
  have hwords : State.InRange
      ⟨⟨[("x", some Word.least), ("y", some (-1))], []⟩, [], [], false, []⟩ :=
    List.forall_mem_singleton.mpr hframe
  obtain ⟨hresult, hstate, -⟩ := (integers_stay_words.1 20 _ _ hwords).of_done hdone
  exact ⟨t, hdone, hprinted, hstate, hresult⟩

end Bronti
