import Bronti.Eval
import Mathlib.Data.List.Forall2
import Mathlib.Data.List.Nodup

/-!
Names that occur again. Of a list of names each that occurs twice at least is found, once, and no
other one is; they are found in the order of their second occurrences. So nothing is found of names
that are all different, and this decides whether the definition of a function is an error.
-/
namespace Bronti

/-- The place at which a name occurs for the second time. -/
def IsSecondPlace (names : List String) (x : String) (i : Nat) : Prop :=
  names[i]? = some x ∧ (names.take i).count x = 1

/-- What is found of names: those that occur twice at least, each of them once, and in the order of
their second occurrences. -/
structure Repeats (names found : List String) : Prop where
  once : found.Nodup
  twice : ∀ x, x ∈ found ↔ 2 ≤ names.count x
  ordered : ∃ places, List.Forall₂ (IsSecondPlace names) found places ∧ places.Pairwise (· < ·)

section Places

variable {names : List String} {x : String} {i : Nat}

theorem IsSecondPlace.lt_length (h : IsSecondPlace names x i) : i < names.length :=
  (List.getElem?_eq_some_iff.mp h.1).1

theorem places_inside {found : List String} {places : List Nat}
    (h : List.Forall₂ (IsSecondPlace names) found places) : ∀ i ∈ places, i < names.length := by
  induction h with
  | nil => simp
  | cons hfirst _ ih => exact List.forall_mem_cons.mpr ⟨hfirst.lt_length, ih⟩

/-- Names that follow move no second occurrence. -/
theorem IsSecondPlace.append (h : IsSecondPlace names x i) (more : List String) :
    IsSecondPlace (names ++ more) x i := by
  refine ⟨?_, ?_⟩
  · rw [List.getElem?_append_left h.lt_length]
    exact h.1
  · rw [List.take_append_of_le_length (Nat.le_of_lt h.lt_length)]
    exact h.2

theorem isSecondPlace_last (h : names.count x = 1) :
    IsSecondPlace (names ++ [x]) x names.length := by
  refine ⟨?_, ?_⟩
  · rw [List.getElem?_append_right (Nat.le_refl _), Nat.sub_self]
    rfl
  · rw [List.take_left]
    exact h

end Places

namespace Repeats

variable {names found : List String} {x : String}

theorem nil : Repeats [] [] where
  once := .nil
  twice := by simp
  ordered := ⟨[], .nil, .nil⟩

/-- A name that was read and not yet found is one that was read once. -/
theorem unfound_iff (h : Repeats names found) : x ∈ names ∧ x ∉ found ↔ names.count x = 1 := by
  have hread : x ∈ names ↔ 0 < names.count x := List.count_pos_iff.symm
  rw [hread, h.twice]
  omega

/-- A name that was read never or twice before adds nothing. -/
theorem pass (h : Repeats names found) (hx : names.count x ≠ 1) : Repeats (names ++ [x]) found where
  once := h.once
  twice y := by
    rw [h.twice, List.count_append]
    by_cases hy : x = y
    · subst hy
      rw [List.count_singleton_self]
      omega
    · simp [hy]
  ordered := by
    obtain ⟨places, hplaces, hincreasing⟩ := h.ordered
    exact ⟨places, hplaces.imp fun _ _ hi => hi.append [x], hincreasing⟩

/-- A name that was read once before is found, behind all that were found earlier. -/
theorem note (h : Repeats names found) (hx : names.count x = 1) :
    Repeats (names ++ [x]) (found ++ [x]) where
  once := by
    have hnew : x ∉ found := (h.unfound_iff.mpr hx).2
    exact List.nodup_append.mpr ⟨h.once, List.nodup_singleton x, by
      rintro y hy z hz rfl
      exact hnew (List.mem_singleton.mp hz ▸ hy)⟩
  twice y := by
    rw [List.mem_append, h.twice, List.mem_singleton, List.count_append]
    by_cases hy : x = y
    · subst hy
      simp [hx]
    · simp [hy, Ne.symm hy]
  ordered := by
    obtain ⟨places, hplaces, hincreasing⟩ := h.ordered
    refine ⟨places ++ [names.length], ?_, ?_⟩
    · have hearlier := hplaces.imp fun _ _ hi => hi.append [x]
      exact List.rel_append hearlier (.cons (isSecondPlace_last hx) .nil)
    · have hinside : ∀ i ∈ places, i < names.length := places_inside hplaces
      exact List.pairwise_append.mpr
        ⟨hincreasing, List.pairwise_singleton _ _, by simpa using hinside⟩

theorem eq_nil_iff (h : Repeats names found) : found = [] ↔ names.Nodup := by
  rw [List.eq_nil_iff_forall_not_mem, List.nodup_iff_count_le_one]
  refine forall_congr' fun x => ?_
  rw [h.twice]
  omega

end Repeats

/-- What is found of all names, when those before have been read and what is found of them is
noted. -/
theorem repeatedFrom_repeats {before found : List String} (h : Repeats before found)
    (names : List String) :
    Repeats (before ++ names) (repeatedFrom before.reverse found.reverse names) := by
  -- the names before and what is found of them are both kept from the last one back
  induction names generalizing before found with
  | nil => simpa [repeatedFrom] using h
  | cons x names ih =>
    have hnew : x ∈ before.reverse ∧ x ∉ found.reverse ↔ before.count x = 1 := by
      rw [List.mem_reverse, List.mem_reverse, h.unfound_iff]
    simp only [repeatedFrom, hnew]
    split
    · next hx => simpa using ih (h.note hx)
    · next hx => simpa using ih (h.pass hx)

theorem repeated_repeats (names : List String) : Repeats names (repeated names) :=
  repeatedFrom_repeats .nil names

example : repeated ["a", "b", "c", "b", "a", "b"] = ["b", "a"] := by decide

section Definitions

variable {params : List String} {name : String} {body : Ast} {span : Option Span} {s : State}

/-- A parameter that occurs again is an error, whatever functions there are, and changes nothing. -/
theorem functionStatement_of_repeated (h : ¬ params.Nodup) :
    Eval.functionStatement name params body span s =
      .stopped (.error ⟨.repeatedParameter, span⟩) s := by
  have hfound : repeated params ≠ [] := fun hnil =>
    h ((repeated_repeats params).eq_nil_iff.mp hnil)
  simp [Eval.functionStatement, hfound, Run.error]

/-- Where the parameters are all different, the only error is that the function is there already. -/
theorem functionStatement_of_nodup (h : params.Nodup) :
    Eval.functionStatement name params body span s =
      match s.declareFunction? name ⟨params, body⟩ with
      | some t => .done .nothing t
      | none => .stopped (.error ⟨.redefinedFunction name, span⟩) s := by
  have hfound : repeated params = [] := (repeated_repeats params).eq_nil_iff.mpr h
  simp only [Eval.functionStatement, hfound, List.isEmpty_nil, Bool.not_true, Bool.false_eq_true,
    if_false]
  change Run.bind (Run.declareFunction name ⟨params, body⟩) _ s = _
  simp only [Run.bind, Run.declareFunction, Run.attempt]
  cases s.declareFunction? name ⟨params, body⟩ with
  | some t => rfl
  | none => rfl

end Definitions

/-- What is found of a list of names are those that occur twice at least, each of them once, in the
order of their second occurrences. It is nothing if and only if the names are all different, and if
and only if they are not, the definition of a function that has them as parameters is an error for
this reason. -/
theorem repeated_exact (names : List String) :
    Repeats names (repeated names) ∧ (repeated names = [] ↔ names.Nodup) ∧
      ∀ (name : String) (body : Ast) (span : Option Span) (steps : Nat) (s : State),
        (eval (steps + 1) (.function name names body span) s =
            .stopped (.error ⟨.repeatedParameter, span⟩)
              (s.visit (.function name names body span)) ↔ ¬ names.Nodup) ∧
        ((∃ e t, eval (steps + 1) (.function name names body span) s = .stopped (.error e) t ∧
            e.cause.kind = .duplicateParameter) ↔ ¬ names.Nodup) := by
  have hfound : Repeats names (repeated names) := repeated_repeats names
  refine ⟨hfound, hfound.eq_nil_iff, fun name body span steps s => ?_⟩
  have heval : eval (steps + 1) (.function name names body span) s =
      Eval.functionStatement name names body span (s.visit (.function name names body span)) := rfl
  rw [heval]
  by_cases hdistinct : names.Nodup
  · rw [functionStatement_of_nodup hdistinct]
    split
    · simp [hdistinct]
    · simp [hdistinct, Cause.kind]
  · rw [functionStatement_of_repeated hdistinct]
    simp [hdistinct, Cause.kind]

end Bronti
