import Bronti.Proofs.Decimal
import Bronti.Proofs.Excerpts
import Mathlib.Data.List.Intervals

/-!
The layout of excerpts. An excerpt has a row for each line near the marked one, behind margins that are
all of one size, and one more row whose caret stands under a column of the marked line.
-/
namespace Bronti.Report

open Text (isLineBreak lines)

/-- A margin of a size: the mark or a blank, the number of the line on the right, and a bar. -/
structure IsMargin (size : Nat) (marked : Bool) (number : Nat) (m : List Char) : Prop where
  length : m.length = size
  shape : ∃ blanks, m = [' ', ' ', if marked then '>' else ' ', ' '] ++
    List.replicate blanks ' ' ++ digits number ++ [' ', '|', ' ']

/-- The rows that show the line of a number: the line behind its margin and, for the marked line, a
caret that has as much before it as the margin and the columns before the one that is asked for. -/
inductive Shown (text : List Char) (line column size : Nat) : Nat → List (List Char) → Prop
  | plain {number : Nat} {content m : List Char} (other : number ≠ line)
      (source : (lines text)[number - 1]? = some content) (margin : IsMargin size false number m) :
      Shown text line column size number [m ++ content]
  | marked {content m rule : List Char} (source : (lines text)[line - 1]? = some content)
      (margin : IsMargin size true line m) (blank : ∀ c ∈ rule, c = ' ' ∨ c = '|')
      (caret : rule.length = size + (column - 1))
      (under : ∀ c, content[column - 1]? = some c → (m ++ content)[rule.length]? = some c) :
      Shown text line column size line [m ++ content, rule ++ ['^']]

theorem margin_isMargin {width number : Nat} (marked : Bool)
    (h : (digits number).length ≤ width) :
    IsMargin (4 + width + 3) marked number (margin width marked number) :=
  ⟨margin_length marked h, width - (digits number).length, by simp [margin, padLeft]⟩

theorem IsMargin.newline_not_mem {size number : Nat} {marked : Bool} {m : List Char}
    (h : IsMargin size marked number m) : '\n' ∉ m := by
  obtain ⟨blanks, rfl⟩ := h.shape
  have hdigits : '\n' ∉ digits number := fun hmem =>
    absurd (Text.Integer.isDigit_of_mem_toString hmem) (by decide)
  cases marked <;> simp [hdigits]

/-- No row is broken by a newline. -/
theorem Shown.newline_not_mem {text : List Char} {line column size number : Nat}
    {rows : List (List Char)} (h : Shown text line column size number rows) :
    ∀ row ∈ rows, '\n' ∉ row := by
  have hcontent : ∀ {k : Nat} {content : List Char}, (lines text)[k]? = some content →
      '\n' ∉ content := by
    intro k content hsource hmem
    have hbreak := Text.isLineBreak_of_mem_lines (List.mem_of_getElem? hsource) hmem
    cases hbreak
  cases h with
  | plain other source margin =>
    simpa using ⟨margin.newline_not_mem, hcontent source⟩
  | @marked content m rule source margin blank caret under =>
    have hrule : '\n' ∉ rule := by
      intro hmem
      rcases blank _ hmem with h | h <;> cases h
    simpa using ⟨⟨margin.newline_not_mem, hcontent source⟩, hrule⟩

theorem newline_not_mem_of_shown {text : List Char} {line column size : Nat} {numbers : List Nat}
    {rows : List (List (List Char))} (h : List.Forall₂ (Shown text line column size) numbers rows) :
    ∀ row ∈ rows.flatten, '\n' ∉ row := by
  induction h with
  | nil => simp
  | cons hshown _ ih =>
    rw [List.flatten_cons]
    exact List.forall_mem_append.mpr ⟨hshown.newline_not_mem, ih⟩

/-- The rows of a line show it. -/
theorem rowsOf_shown {text content : List Char} {line number width : Nat} (column : Nat)
    (hsource : (lines text)[number - 1]? = some content)
    (hdigits : (digits number).length ≤ width) :
    Shown text line column (4 + width + 3) number (rowsOf width line column number content) := by
  unfold rowsOf
  split
  · next heq =>
    obtain rfl : number = line := by omega
    have hmargin := margin_isMargin true hdigits
    have hrule : (List.replicate (4 + width) ' ' ++ [' ', '|', ' '] ++
        List.replicate ((column : Int) - 1).toNat ' ').length = 4 + width + 3 + (column - 1) := by
      simp only [List.length_append, List.length_replicate, List.length_cons, List.length_nil]
      omega
    refine .marked hsource hmargin ?_ hrule fun c hc => ?_
    · simp only [List.mem_append, List.mem_replicate, List.mem_cons, List.not_mem_nil]
      tauto
    · rwa [hrule, List.getElem?_append_right (by rw [hmargin.length]; omega), hmargin.length,
        Nat.add_sub_cancel_left]
  · next hne => exact .plain (by omega) hsource (margin_isMargin false hdigits)

/-- The lines from one number to another, each with its number. -/
def window (text : List Char) (first last : Nat) : List (List Char × Nat) :=
  ((lines text).zipIdx 1).filter fun l => first ≤ l.2 && l.2 ≤ last

theorem window_numbers {text : List Char} {first last : Nat} (hfirst : 1 ≤ first)
    (hlast : last ≤ (lines text).length) :
    (window text first last).map Prod.snd = List.Ico first (last + 1) := by
  have hall : ((lines text).zipIdx 1).map Prod.snd = List.Ico 1 ((lines text).length + 1) := by
    rw [List.zipIdx_map_snd, List.Ico, Nat.add_sub_cancel]
  have hfilter := congrArg (List.filter fun k => decide (first ≤ k) && decide (k < last + 1)) hall
  rw [List.filter_map, ← List.filter_filter, List.Ico.filter_lt, List.Ico.filter_le,
    Nat.max_eq_right hfirst, Nat.min_eq_right (by omega)] at hfilter
  simpa only [window, Nat.lt_succ_iff, Function.comp_def] using hfilter

theorem mem_window {text : List Char} {first last : Nat} {l : List Char × Nat}
    (h : l ∈ window text first last) : l.2 ≤ last ∧ (lines text)[l.2 - 1]? = some l.1 := by
  obtain ⟨hmem, hwindow⟩ := List.mem_filter.mp h
  simp only [Bool.and_eq_true, decide_eq_true_eq] at hwindow
  exact ⟨hwindow.2, (List.mk_mem_zipIdx_iff_le_and_getElem?_sub.mp hmem).2⟩

/-- The rows of the lines from one number to another show them, behind margins that are wide enough for
the last number. -/
theorem window_shown {text : List Char} (line column : Nat) {first last : Nat}
    (hfirst : 1 ≤ first) (hlast : last ≤ (lines text).length) {width : Nat}
    (hwidth : (toString (last : Int)).length = width) :
    List.Forall₂ (Shown text line column (4 + width + 3)) (List.Ico first (last + 1))
      ((window text first last).map fun l => rowsOf width line column l.2 l.1) := by
  rw [← window_numbers hfirst hlast, List.forall₂_map_left_iff, List.forall₂_map_right_iff,
    List.forall₂_same]
  intro l hl
  obtain ⟨hle, hsource⟩ := mem_window hl
  exact rowsOf_shown column hsource (hwidth ▸ digits_length_mono hle)

/-- The rows of an excerpt, by the numbers of its first and its last line. -/
theorem excerptRows_eq {text : List Char} {line : Nat} (hlo : 1 ≤ line)
    (hhi : line ≤ (lines text).length) (column radius : Nat) {first last : Nat}
    (hfirst : max 1 (line - radius) = first)
    (hlast : min (lines text).length (line + radius) = last) :
    excerptRows text line column radius = ((window text first last).map fun l =>
      rowsOf (toString (last : Int)).length line column l.2 l.1).flatten := by
  have hshown : shownLines text = lines text := by
    unfold shownLines
    split
    · next hnil =>
      rw [hnil, List.length_nil] at hhi
      omega
    · rfl
  have hfirst' : max 1 ((line : Int) - radius) = first := by omega
  have hlast' : min ((lines text).length : Int) ((line : Int) + radius) = last := by omega
  unfold excerptRows
  simp only [hshown, hfirst', hlast', Int.ofNat_le, List.flatMap_def]
  rfl

/-- An excerpt is laid out as it should be. Broken at its newlines it has the rows of one line after
another, from the first to the last that is not further away than the radius, all of them behind margins
of one size. -/
theorem excerpt_laid_out {text : List Char} {line : Nat} (hlo : 1 ≤ line)
    (hhi : line ≤ (lines text).length) (column radius : Nat) :
    ∃ size rows, (excerpt text line column radius).toList.splitOn '\n' = rows.flatten ∧
      List.Forall₂ (Shown text line column size)
        (List.Ico (max 1 (line - radius)) (min (lines text).length (line + radius) + 1)) rows := by
  generalize hlast : min (lines text).length (line + radius) = last
  generalize hfirst : max 1 (line - radius) = first
  have hrows := excerptRows_eq hlo hhi column radius hfirst hlast
  have hshown : List.Forall₂ _ _ _ :=
    window_shown line column (hfirst ▸ Nat.le_max_left 1 _) (hlast ▸ Nat.min_le_left _ _) rfl
  refine ⟨_, _, ?_, hshown⟩
  rw [excerpt, String.toList_ofList, ← hrows]
  have hunbroken : ∀ row ∈ excerptRows text line column radius, '\n' ∉ row := by
    rw [hrows]
    exact newline_not_mem_of_shown hshown
  have hne : excerptRows text line column radius ≠ [] := by
    -- the marked line is one of those that are shown
    have hsource := List.getElem?_eq_getElem (show line - 1 < (lines text).length by omega)
    obtain ⟨above, left, rule, below, hmarked, -⟩ := excerptRows_marked column radius hsource
    rw [Nat.sub_add_cancel hlo] at hmarked
    simp [hmarked]
  exact List.splitOn_intercalate '\n' hunbroken hne

/-- The last three of ten lines, the last number being longer than the others. -/
theorem ten_lines_laid_out :
    1 ≤ 9 ∧ 9 ≤ (lines "a\nb\nc\nd\ne\nf\ng\nh\nij\nk".toList).length ∧
      ∃ size rows,
        (excerpt "a\nb\nc\nd\ne\nf\ng\nh\nij\nk".toList 9 2 1).toList.splitOn '\n' =
          rows.flatten ∧
        List.Forall₂ (Shown "a\nb\nc\nd\ne\nf\ng\nh\nij\nk".toList 9 2 size) (List.Ico 8 11)
          rows := by
  have hlo : 1 ≤ 9 := by decide
  have hhi : 9 ≤ (lines "a\nb\nc\nd\ne\nf\ng\nh\nij\nk".toList).length := by decide
  exact ⟨hlo, hhi, excerpt_laid_out hlo hhi 2 1⟩

example : excerpt "a\nb\nc\nd\ne\nf\ng\nh\nij\nk".toList 9 2 1 =
    "     8 | h\n  >  9 | ij\n       |  ^\n    10 | k" := by cbv

end Bronti.Report
