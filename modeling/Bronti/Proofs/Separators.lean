import Mathlib.Data.List.Basic

/-!
Reading separated text back. Where a separator begins with something that stands in none of the pieces,
the whole determines the pieces.
-/
namespace Bronti

theorem intercalate_append {α : Type} (between x : List α) (xs : List (List α)) :
    between.intercalate (x :: xs) ++ between = (x :: xs).flatMap (· ++ between) := by
  induction xs generalizing x with
  | nil => simp
  | cons y xs ih =>
    rw [List.intercalate_cons_cons, List.append_assoc, ih y, List.flatMap_cons, List.flatMap_cons,
      List.flatMap_cons]

theorem mem_of_mem_intercalate {α : Type} {between : List α} {xs : List (List α)} {a : α}
    (h : a ∈ between.intercalate xs) : a ∈ between ∨ ∃ x ∈ xs, a ∈ x := by
  cases xs with
  | nil => cases h
  | cons x xs =>
    have hmem := List.mem_append_left between h
    rw [intercalate_append, List.mem_flatMap] at hmem
    obtain ⟨y, hy, ha⟩ := hmem
    rcases List.mem_append.mp ha with ha | ha
    · exact .inr ⟨y, hy, ha⟩
    · exact .inl ha

theorem intercalate_ne_nil {α : Type} {between x : List α} {xs : List (List α)} (hx : x ≠ []) :
    between.intercalate (x :: xs) ≠ [] := by
  cases xs <;> simp [hx]

/-- What stands up to the first element without a property is determined, and so is the rest. -/
theorem append_stop_inj {α : Type} {p : α → Bool} {xs ys zs ws : List α} {z w : α}
    (hx : ∀ x ∈ xs, p x = true) (hy : ∀ y ∈ ys, p y = true) (hz : p z = false) (hw : p w = false)
    (h : xs ++ z :: zs = ys ++ w :: ws) : xs = ys ∧ z :: zs = w :: ws := by
  have htake := congrArg (List.takeWhile p) h
  rw [List.takeWhile_append_of_pos hx, List.takeWhile_append_of_pos hy,
    List.takeWhile_cons_of_neg (by simp [hz]), List.takeWhile_cons_of_neg (by simp [hw]),
    List.append_nil, List.append_nil] at htake
  subst htake
  exact ⟨rfl, List.append_cancel_left h⟩

variable {α : Type} [DecidableEq α] {sep : α} {rest : List α}

/-- What stands up to the first separator is determined, and so is what stands behind it. -/
theorem append_cons_inj {xs ys zs ws : List α} (hx : sep ∉ xs) (hy : sep ∉ ys)
    (h : xs ++ sep :: zs = ys ++ sep :: ws) : xs = ys ∧ zs = ws := by
  have hfree : ∀ {us : List α}, sep ∉ us → ∀ u ∈ us, (u != sep) = true := by
    intro us hus u hu
    rw [bne_iff_ne]
    rintro rfl
    exact hus hu
  obtain ⟨rfl, hrest⟩ := append_stop_inj (hfree hx) (hfree hy) (by simp) (by simp) h
  exact ⟨rfl, (List.cons.inj hrest).2⟩

/-- Pieces that are each followed by a separator, and nothing behind the last one. -/
theorem splitOn_terminated {pieces : List (List α)} (h : ∀ x ∈ pieces, sep ∉ x) :
    (pieces.flatMap (· ++ [sep])).splitOn sep = pieces ++ [[]] := by
  induction pieces with
  | nil => simp
  | cons x pieces ih =>
    obtain ⟨hx, hpieces⟩ := List.forall_mem_cons.mp h
    rw [List.flatMap_cons, List.append_assoc, List.singleton_append,
      List.splitOn_append_cons_self_of_not_mem hx, ih hpieces, List.cons_append]

theorem terminated_inj {xs ys : List (List α)} (hx : ∀ x ∈ xs, sep ∉ x) (hy : ∀ y ∈ ys, sep ∉ y)
    (h : xs.flatMap (· ++ sep :: rest) = ys.flatMap (· ++ sep :: rest)) : xs = ys := by
  induction xs generalizing ys with
  | nil => cases ys <;> simp_all
  | cons x xs ih =>
    obtain ⟨hxsep, hxs⟩ := List.forall_mem_cons.mp hx
    cases ys with
    | nil => simp at h
    | cons y ys =>
      obtain ⟨hysep, hys⟩ := List.forall_mem_cons.mp hy
      simp only [List.flatMap_cons, List.append_assoc, List.cons_append] at h
      obtain ⟨rfl, hrest⟩ := append_cons_inj hxsep hysep h
      rw [ih hxs hys (List.append_cancel_left hrest)]

/-- Pieces with separators between them; as no piece is empty, none at all is no single piece. -/
theorem intercalate_inj {xs ys : List (List α)} (hx : ∀ x ∈ xs, x ≠ [] ∧ sep ∉ x)
    (hy : ∀ y ∈ ys, y ≠ [] ∧ sep ∉ y)
    (h : (sep :: rest).intercalate xs = (sep :: rest).intercalate ys) : xs = ys := by
  cases xs with
  | nil =>
    cases ys with
    | nil => rfl
    | cons y ys => exact absurd h.symm (intercalate_ne_nil (hy y (by simp)).1)
  | cons x xs =>
    cases ys with
    | nil => exact absurd h (intercalate_ne_nil (hx x (by simp)).1)
    | cons y ys =>
      have hterminated := congrArg (· ++ sep :: rest) h
      simp only [intercalate_append] at hterminated
      exact terminated_inj (fun x h => (hx x h).2) (fun y h => (hy y h).2) hterminated

end Bronti
