import Bronti.Proofs.FirstFailure

/-!
What a report shows of a text. Its line and its column count newlines and characters of the text with
expanded tabs; they are looked up in the text itself, among lines that every kind of line break ends.
Up to the place of a failure both come to the same where newlines are the only line breaks and no tab
stands on the line.
-/
namespace Bronti.Text

/-! ## Lines -/

/-- Newlines are the only line breaks, apart from carriage returns right before them. -/
def NewlinesOnly : List Char → Prop
  | [] => True
  | c :: cs => (isLineBreak c → c = '\n' ∨ c = '\r' ∧ cs.head? = some '\n') ∧ NewlinesOnly cs

instance decidableNewlinesOnly : (cs : List Char) → Decidable (NewlinesOnly cs)
  | [] => isTrue trivial
  | c :: cs =>
    have := decidableNewlinesOnly cs
    inferInstanceAs (Decidable ((isLineBreak c → c = '\n' ∨ c = '\r' ∧ cs.head? = some '\n') ∧
      NewlinesOnly cs))

theorem cutAtBreaks_cons {c : Char} (hc : isLineBreak c = false) (cs : List Char) :
    cutAtBreaks (c :: cs) = (c :: (cutAtBreaks cs).headD []) :: (cutAtBreaks cs).tail := by
  rw [cutAtBreaks, hc]
  cases cutAtBreaks cs <;> rfl

theorem lines_ne_nil {cs : List Char} (h : cs ≠ []) : lines cs ≠ [] := by
  have hnormal : normalizeNewlines cs ≠ [] := by
    induction cs with
    | nil => exact absurd rfl h
    | cons c cs ih =>
      rw [normalizeNewlines]
      split
      · split
        · next hhead => exact ih (by rintro rfl; cases hhead)
        · simp
      · simp
  obtain ⟨c, ds, hcs⟩ := List.exists_cons_of_ne_nil hnormal
  rw [lines, hcs]
  cases hb : isLineBreak c with
  | true => simp [cutAtBreaks, hb]
  | false => simp [cutAtBreaks_cons hb]

/-- Behind a newline the lines begin anew, after one line for each newline so far. -/
theorem lines_drop {cs line : List Char} (h : NewlinesOnly (cs ++ '\n' :: line)) (ds : List Char) :
    (lines (cs ++ '\n' :: ds)).drop (cs.count '\n' + 1) = lines ds := by
  induction cs with
  | nil => rfl
  | cons c cs ih =>
    obtain ⟨hc, hcs⟩ := h
    have hrest := ih hcs
    unfold lines at hrest ⊢
    rw [List.cons_append, normalizeNewlines]
    by_cases hr : c = '\r'
    · subst hr
      have hhead : (cs ++ '\n' :: line).head? = some '\n' := by simpa using hc rfl
      have hhead' : (cs ++ '\n' :: ds).head? = some '\n' := by
        cases cs with
        | nil => rfl
        | cons d cs => exact hhead
      rw [if_pos rfl, if_pos hhead', List.count_cons_of_ne (by decide)]
      exact hrest
    · rw [if_neg hr]
      by_cases hn : c = '\n'
      · subst hn
        rw [List.count_cons_self]
        exact hrest
      · have hb : isLineBreak c = false := by
          by_contra hb
          rcases hc (by simpa using hb) with rfl | ⟨rfl, -⟩
          · exact hn rfl
          · exact hr rfl
        rw [cutAtBreaks_cons hb, List.count_cons_of_ne hn, List.drop_succ_cons, List.drop_tail]
        exact hrest

/-- The first line of a text goes up to the first line break. -/
theorem lines_head (cs : List Char) :
    (lines cs).headD [] = cs.takeWhile fun c => !isLineBreak c := by
  induction cs with
  | nil => rfl
  | cons c cs ih =>
    unfold lines at ih ⊢
    rw [normalizeNewlines]
    by_cases hr : c = '\r'
    · subst hr
      rw [if_pos rfl, List.takeWhile_cons_of_neg (by decide)]
      split
      · next hhead =>
        obtain ⟨ds, rfl⟩ := List.head?_eq_some_iff.mp hhead
        exact ih.trans (List.takeWhile_cons_of_neg (by decide))
      · rfl
    · rw [if_neg hr]
      cases hb : isLineBreak c with
      | true => simp [cutAtBreaks, hb]
      | false =>
        rw [cutAtBreaks_cons hb, List.takeWhile_cons_of_pos (by simp [hb]), ← ih]
        rfl

theorem NewlinesOnly.suffix {cs ds : List Char} (h : NewlinesOnly (cs ++ ds)) : NewlinesOnly ds := by
  induction cs with
  | nil => exact h
  | cons c cs ih => exact ih h.2

theorem NewlinesOnly.no_break {cs : List Char} (h : NewlinesOnly cs) (hn : '\n' ∉ cs) :
    ∀ c ∈ cs, (!isLineBreak c) = true := by
  induction cs with
  | nil => simp
  | cons c cs ih =>
    obtain ⟨hc, hcs⟩ := h
    obtain ⟨hne, hnot⟩ := List.ne_and_not_mem_of_not_mem_cons hn
    refine List.forall_mem_cons.mpr ⟨?_, ih hcs hnot⟩
    by_contra hb
    rcases hc (by simpa using hb) with rfl | ⟨-, hhead⟩
    · exact hne rfl
    · exact hnot (List.mem_of_head? hhead)

/-- The line of a place, counted by the newlines before it: what stands before the place on it, and
then what follows up to the next line break. -/
theorem line_at {cs ds : List Char} (h : NewlinesOnly cs) (hds : ds ≠ []) :
    (lines (cs ++ ds))[cs.count '\n']? =
      some (lastLine cs ++ ds.takeWhile fun c => !isLineBreak c) := by
  have hfirst : ∀ {line : List Char}, NewlinesOnly line → '\n' ∉ line →
      (lines (line ++ ds))[0]? = some (line ++ ds.takeWhile fun c => !isLineBreak c) := by
    intro line hline hn
    have hhead := lines_head (line ++ ds)
    rw [List.takeWhile_append_of_pos (hline.no_break hn)] at hhead
    obtain ⟨l, ls, hlines⟩ := List.exists_cons_of_ne_nil
      (lines_ne_nil (List.append_ne_nil_of_right_ne_nil line hds))
    rw [hlines] at hhead ⊢
    exact congrArg some hhead
  have hnone := not_mem_lastLine cs
  rcases lastLine_cases cs with hcs | ⟨front, hcs⟩
  · rw [hcs] at hnone ⊢
    rw [List.count_eq_zero.mpr hnone]
    exact hfirst h hnone
  · generalize lastLine cs = line at hcs hnone
    subst hcs
    have hdrop := lines_drop h (line ++ ds)
    have hcount : (front ++ '\n' :: line).count '\n' = front.count '\n' + 1 := by
      simp [List.count_eq_zero.mpr hnone]
    have hline : NewlinesOnly line := h.suffix.2
    rw [hcount, List.append_assoc, List.cons_append, ← hfirst hline hnone, ← hdrop,
      List.getElem?_drop, Nat.add_zero]

/-! ## Tabs -/

theorem count_expandTabsFrom (column : Nat) (cs : List Char) :
    (expandTabsFrom column cs).count '\n' = cs.count '\n' := by
  fun_induction expandTabsFrom column cs with
  | case1 => rfl
  | case2 column cs ih => simp [List.count_append, List.count_replicate, ih]
  | case3 column c cs hc ih => simp [List.count_cons, ih]

/-- A character of the expanded text that is no blank is one of the text. -/
theorem expandTabsFrom_cut {column : Nat} {cs front rest : List Char} {c : Char} (hc : c ≠ ' ')
    (h : expandTabsFrom column cs = front ++ c :: rest) :
    ∃ before after n, cs = before ++ c :: after ∧ expandTabsFrom column before = front ∧
      expandTabsFrom n after = rest := by
  fun_induction expandTabsFrom column cs generalizing front with
  | case1 => simp at h
  | case2 column cs ih =>
    rcases List.append_eq_append_iff.mp h with ⟨more, rfl, hmore⟩ | ⟨spaces, hspaces, hrest⟩
    · obtain ⟨before, after, n, rfl, hfront, hrest⟩ := ih hmore
      exact ⟨'\t' :: before, after, n, rfl, by simp [expandTabsFrom, hfront], hrest⟩
    · cases spaces with
      | nil =>
        have hnone : expandTabsFrom (column + (8 - column % 8)) cs = [] ++ c :: rest := hrest.symm
        obtain ⟨before, after, n, rfl, hfront, hrest⟩ := ih hnone
        exact ⟨'\t' :: before, after, n, rfl, by simp [expandTabsFrom, hfront, hspaces], hrest⟩
      -- the character would be one of the blanks that the tab became
      | cons d spaces =>
        obtain ⟨rfl, -⟩ := List.cons.inj hrest
        have hmem : c ∈ List.replicate (8 - column % 8) ' ' := by simp [hspaces]
        exact absurd (List.eq_of_mem_replicate hmem) hc
  | case3 column d cs hd ih =>
    cases front with
    | nil =>
      obtain ⟨rfl, hrest⟩ := List.cons.inj h
      exact ⟨[], cs, _, rfl, rfl, hrest⟩
    | cons e front =>
      obtain ⟨rfl, htail⟩ := List.cons.inj h
      obtain ⟨before, after, n, rfl, hfront, hrest⟩ := ih htail
      exact ⟨d :: before, after, n, rfl, by rw [expandTabsFrom.eq_3 _ _ _ hd, hfront], hrest⟩

/-- On a line without tabs, what stands before a place is also in the expanded text. -/
theorem lastLine_expandTabs {cs : List Char} (h : '\t' ∉ lastLine cs) :
    lastLine (expandTabs cs) = lastLine cs := by
  have hnone := not_mem_lastLine cs
  rcases lastLine_cases cs with hcs | ⟨front, hcs⟩
  · rw [hcs] at h
    rw [expandTabs, expandTabsFrom_of_not_mem 0 h]
  · generalize lastLine cs = line at *
    rw [hcs, expandTabs, Syntax.expandTabsFrom_newline, expandTabsFrom_of_not_mem 0 h,
      lastLine_append _ hnone]

end Bronti.Text

namespace Bronti.Report

open Text (isWord isSpace isLineBreak lines NewlinesOnly lastLine)

/-! ## Excerpts -/

/-- The word at the front of a text, or a single character that begins no word. -/
def firstWord (c : Char) (cs : List Char) : List Char :=
  if isWord c then (c :: cs).takeWhile isWord else [c]

theorem not_word_of_break {c : Char} (h : isLineBreak c) : isWord c = false := by
  simp only [isLineBreak, Bool.or_eq_true, beq_iff_eq] at h
  rcases h with ((((((((rfl | rfl) | rfl) | rfl) | rfl) | rfl) | rfl) | rfl) | rfl) | rfl <;>
    decide +kernel

theorem space_of_break {c : Char} (h : isLineBreak c) : isSpace c := by
  simp only [isLineBreak, Bool.or_eq_true, beq_iff_eq] at h
  rcases h with ((((((((rfl | rfl) | rfl) | rfl) | rfl) | rfl) | rfl) | rfl) | rfl) | rfl <;>
    decide +kernel

/-- A word goes no further than its line. -/
theorem firstWord_line (c : Char) (cs : List Char) :
    firstWord c (cs.takeWhile fun d => !isLineBreak d) = firstWord c cs := by
  have hword : (cs.takeWhile fun d => !isLineBreak d).takeWhile isWord = cs.takeWhile isWord := by
    induction cs with
    | nil => rfl
    | cons d cs ih =>
      cases hb : isLineBreak d with
      | true => simp [hb, not_word_of_break hb]
      | false => simp [List.takeWhile_cons, hb, ih]
  unfold firstWord
  split
  · next hc => rw [List.takeWhile_cons_of_pos hc, List.takeWhile_cons_of_pos hc, hword]
  · rfl

/-- What is found at a place of a line is what begins there. -/
theorem tokenAt_of_line {text front cs : List Char} {c : Char} {n : Nat}
    (hl : (lines text)[n]? = some (front ++ c :: cs)) (hc : isSpace c = false) :
    tokenAt text (n + 1) (front.length + 1) = Text.quote (String.ofList (firstWord c cs)) := by
  have hlen : n < (lines text).length := (List.getElem?_eq_some_iff.mp hl).1
  have hline : numbered? (lines text) (n + 1 - 1) = some (front ++ c :: cs) := by
    simpa [numbered?] using hl
  have hcolumn : fromColumn (front ++ c :: cs) (front.length + 1) = c :: cs := by
    rw [fromColumn, if_pos (by omega), Int.add_sub_cancel, Int.toNat_natCast, List.drop_left]
  have htoken : firstToken? (c :: cs) = some (firstWord c cs) := by
    rw [firstToken?, List.dropWhile_cons_of_neg (by simp [hc])]
    rfl
  rw [tokenAt, tokenAt?, if_neg (by omega), hline]
  simp [hcolumn, htoken]

theorem digits_length_mono {n k : Nat} (h : n ≤ k) :
    (digits n).length ≤ (toString (k : Int)).length := by
  have hn : (digits n).length = n.repr.length := String.length_toList
  have hk : (toString (k : Int)).length = k.repr.length := rfl
  rw [hn, hk, Nat.length_repr_le_iff Nat.length_repr_pos]
  exact h.trans_lt ((Nat.length_repr_le_iff Nat.length_repr_pos).mp (Nat.le_refl _))

theorem margin_length {width n : Nat} (marked : Bool) (h : (digits n).length ≤ width) :
    (margin width marked n).length = 4 + width + 3 := by
  simp only [margin, padLeft, List.length_append, List.length_cons, List.length_nil,
    List.length_replicate]
  omega

/-- An excerpt shows the marked line, and right under it the caret under its column. -/
theorem excerptRows_marked {text content : List Char} {n : Nat} (column radius : Nat)
    (hl : (lines text)[n]? = some content) :
    ∃ above left rule below, excerptRows text (n + 1 : Nat) column radius =
        above ++ (left ++ content) :: (rule ++ ['^']) :: below ∧
      rule.length = left.length + (column - 1) := by
  obtain ⟨hn, -⟩ := List.getElem?_eq_some_iff.mp hl
  have hshown : shownLines text = lines text := by
    unfold shownLines
    split
    · next hnil => simp [hnil] at hn
    · rfl
  have hlast : min ((lines text).length : Int) (((n + 1 : Nat) : Int) + radius) =
      (min (lines text).length (n + 1 + radius) : Nat) := by omega
  have hmem : (content, n + 1) ∈ ((lines text).zipIdx 1).filter fun l =>
      max 1 (((n + 1 : Nat) : Int) - radius) ≤ (l.2 : Int) &&
        (l.2 : Int) ≤ (min (lines text).length (n + 1 + radius) : Nat) := by
    refine List.mem_filter.mpr ⟨List.mk_mem_zipIdx_iff_le_and_getElem?_sub.mpr ⟨?_, hl⟩, ?_⟩
    · omega
    · simp only [Bool.and_eq_true, decide_eq_true_eq]
      omega
  obtain ⟨before, after, hrows⟩ := List.append_of_mem hmem
  unfold excerptRows
  simp only [hshown, hlast, hrows, List.flatMap_append, List.flatMap_cons]
  generalize hwidth : (toString ((min (lines text).length (n + 1 + radius) : Nat) : Int)).length =
    width
  have hdigits : (digits (n + 1)).length ≤ width := by
    rw [← hwidth]
    exact digits_length_mono (by omega)
  have hrow : rowsOf width ((n + 1 : Nat) : Int) column (n + 1) content =
      [margin width true (n + 1) ++ content, List.replicate (4 + width) ' ' ++ [' ', '|', ' '] ++
        List.replicate ((column : Int) - 1).toNat ' ' ++ ['^']] := if_pos rfl
  rw [hrow, List.cons_append, List.cons_append, List.nil_append]
  refine ⟨_, _, _, _, rfl, ?_⟩
  rw [margin_length true hdigits]
  simp only [List.length_append, List.length_replicate, List.length_cons, List.length_nil]
  omega

/-! ## Reports -/

/-- The report shows a character of a text and what follows it: the character stands on the line and
in the column of the report, the caret is right under it, and what is found begins with it. -/
structure Shows (r : Report) (text front : List Char) (c : Char) (cs : List Char) : Prop where
  line : ∃ rest, (lines text)[(r.line - 1).toNat]? = some (front ++ c :: rest)
  column : r.column = front.length + 1
  caret : ∃ above left rest rule below, r.context = some (String.ofList (List.intercalate ['\n']
      (above ++ (left ++ (front ++ c :: rest)) :: (rule ++ ['^']) :: below))) ∧
    rule.length = left.length + front.length
  found : r.found = some (Text.quote (String.ofList (firstWord c cs)))

/-- A report on a place in a text shows what stands there, where the place is that far into the line
of its number. -/
theorem make_shows {text front cs : List Char} {c : Char} {n : Nat} (file message : String)
    (location : Int) (hc : isSpace c = false)
    (hl : (lines text)[n]? = some (front ++ (c :: cs).takeWhile fun d => !isLineBreak d)) :
    (make file text message location (n + 1 : Nat) (front.length + 1 : Nat)).Shows text front c
      cs := by
  have hbreak : isLineBreak c = false := by
    by_contra hb
    rw [space_of_break (by simpa using hb)] at hc
    cases hc
  rw [List.takeWhile_cons_of_pos (by simp [hbreak])] at hl
  refine ⟨⟨_, by simpa [make] using hl⟩, by simp [make], ?_, ?_⟩
  · obtain ⟨above, left, rule, below, hrows, hrule⟩ :=
      excerptRows_marked (front.length + 1) 2 hl
    exact ⟨above, left, _, rule, below, congrArg (fun rows =>
      some (String.ofList (List.intercalate ['\n'] rows))) hrows, hrule⟩
  · rw [← firstWord_line c cs]
    exact congrArg some (tokenAt_of_line hl hc)

end Bronti.Report

namespace Bronti.Syntax

open Text (NewlinesOnly lastLine expandTabs isLineBreak)

/-- The report on a program that is not read shows the character at which the reading failed, where
newlines are the only line breaks before it, no tab stands before it on its line, and it is white
space of no kind. -/
theorem failure_shown {file : String} {tracing : Bool} {text : String} {m : Missing} {r : Report}
    (h : (Session.readProgram file tracing text).answer = .error (.unread m r)) :
    ∃ before c after, text.toList = before ++ c :: after ∧
      r.location = (expandTabs before).length ∧
      (expandTabs text.toList)[(expandTabs before).length]? = some c ∧
      (NewlinesOnly before → '\t' ∉ lastLine before → Text.isSpace c = false →
        r.Shows text.toList (lastLine before) c after) := by
  obtain ⟨f, hf, rfl⟩ := readProgram_unread h
  obtain ⟨kept, c, rest, htext, hblank, hpos⟩ := program_stops hf
  have hspace : c ≠ ' ' := by
    rintro rfl
    exact hblank (by decide)
  obtain ⟨before, after, -, hcut, rfl, -⟩ := Text.expandTabsFrom_cut hspace htext
  refine ⟨before, c, after, hcut, ?_, ?_, fun hbreaks htab hc => ?_⟩
  · simp [Report.ofFailure, Report.make, hpos, expandTabs]
  · rw [htext]
    simp [expandTabs]
  · have hline : f.pos.line = before.count '\n' + 1 := by
      rw [hpos, Text.Position.line_advance, Text.count_expandTabsFrom]
      exact Nat.add_comm _ _
    have hcolumn : f.pos.column = (lastLine before).length + 1 := by
      rw [hpos, Text.Position.column_start_advance, Nat.add_comm]
      exact congrArg (·.length + 1) (Text.lastLine_expandTabs htab)
    have hshown := Text.line_at hbreaks (List.cons_ne_nil c after)
    rw [← hcut] at hshown
    rw [Report.ofFailure, hline, hcolumn]
    exact Report.make_shows file _ _ hc hshown

/-- A semicolon on the second line of a text with a tab on the first one. -/
theorem semicolon_shown :
    ∃ m r, (Session.readProgram "<input>" false "\tvar x\n  ;").answer = .error (.unread m r) ∧
      r.location = 16 ∧ r.Shows "\tvar x\n  ;".toList "  ".toList ';' [] := by
  have hread : ∃ m r, (Session.readProgram "<input>" false "\tvar x\n  ;").answer =
      .error (.unread m r) ∧ r.location = 16 := ⟨_, _, rfl, rfl⟩
  obtain ⟨m, r, hr, hlocation⟩ := hread
  obtain ⟨before, c, after, htext, hplace, -, hshows⟩ := failure_shown hr
  -- the first nine characters expand to sixteen, and no other beginning of the text does
  have hnine : ∀ k < 10, (expandTabs ("\tvar x\n  ;".toList.take k)).length = 16 → k = 9 := by
    decide
  have hbefore : "\tvar x\n  ;".toList.take before.length = before := by rw [htext, List.take_left]
  have hafter : "\tvar x\n  ;".toList.drop before.length = c :: after := by
    rw [htext, List.drop_left]
  have hlength : before.length < 10 := by
    have hall : 10 = before.length + (after.length + 1) := by
      simpa using congrArg List.length htext
    omega
  have hlen := hnine before.length hlength (by rw [hbefore]; omega)
  rw [hlen] at hbefore hafter
  obtain rfl : before = "\tvar x\n  ".toList := hbefore.symm
  obtain ⟨rfl, rfl⟩ := List.cons.inj (show ';' :: [] = c :: after from hafter)
  exact ⟨m, r, hr, hlocation, hshows (by decide) (by decide) (by decide)⟩

/-- A parenthesis that a tab stands before: the tab counts as eight characters in the column of the
report, but as one in the line that it shows, so that nothing is found in this column. -/
theorem tab_hides_token :
    ∃ m r, (Session.readProgram "<input>" false "\t)").answer = .error (.unread m r) ∧
      r.location = 8 ∧ (expandTabs "\t)".toList)[8]? = some ')' ∧
      (Text.lines "\t)".toList)[(r.line - 1).toNat]? = some ['\t', ')'] ∧
      ['\t', ')'][(r.column - 1).toNat]? = none ∧ r.found = some "end of input" :=
  ⟨_, _, rfl, rfl, by decide, by decide, by decide, by decide⟩

end Bronti.Syntax
