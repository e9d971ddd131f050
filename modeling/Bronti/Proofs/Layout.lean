import Bronti.Syntax.Lexeme

/-!
Layouts: which texts write a token sequence. Between the tokens stand separators of blanks and
comments. A gap is read as a separator, whichever way its tabs are expanded.
-/
namespace Bronti.Syntax

open Text (Position)

/-- The text of a comment: any characters, but a newline only behind a backslash. -/
inductive CommentText : List Char → Prop
  | nil : CommentText []
  | char {c : Char} {cs : List Char} (hc : c ≠ '\n') (h : CommentText cs) : CommentText (c :: cs)
  | continued {cs : List Char} (h : CommentText cs) : CommentText ('\\' :: '\n' :: cs)

/-- Blanks and comments. A comment runs to the first newline that no backslash precedes. -/
inductive Separator : List Char → Prop
  | nil : Separator []
  | blank {c : Char} {cs : List Char} (hc : Text.isBlank c) (h : Separator cs) : Separator (c :: cs)
  | comment {text cs : List Char} (ht : CommentText text) (he : text.getLast? ≠ some '\\')
      (h : Separator cs) : Separator ('/' :: '/' :: (text ++ '\n' :: cs))

/-- A separator at the end of a text, where the last comment needs no newline. -/
inductive Trailer : List Char → Prop
  | closed {cs : List Char} (h : Separator cs) : Trailer cs
  | comment {cs text : List Char} (h : Separator cs) (ht : CommentText text) :
      Trailer (cs ++ '/' :: '/' :: text)

/-- A text that is tokens with separators, which may be empty, before, between and behind them. -/
inductive Layout : List Token → List Char → Prop
  | done {cs : List Char} (h : Trailer cs) : Layout [] cs
  | token {t : Token} {ts : List Token} {sep cs : List Char} (h : Separator sep)
      (more : Layout ts cs) : Layout (t :: ts) (sep ++ (t.spelling.toList ++ cs))

/-- A separator that begins with a blank, so that the tokens around it do not touch. -/
structure Spacing (cs : List Char) : Prop where
  separator : Separator cs
  blank : ∃ c ds, cs = c :: ds ∧ Text.isBlank c

/-- What follows a token in a text: more tokens, with a spacing before each of them. -/
inductive Spread : List Token → List Char → Prop
  | done {sep : List Char} (h : sep = [] ∨ Spacing sep) : Spread [] sep
  | token {t : Token} {ts : List Token} {sep cs : List Char} (h : Spacing sep)
      (more : Spread ts cs) : Spread (t :: ts) (sep ++ (t.spelling.toList ++ cs))

/-- A text that writes tokens with a spacing between every two of them, and perhaps one before the
first and one behind the last. -/
inductive Written : List Token → List Char → Prop
  | empty {sep : List Char} (h : sep = [] ∨ Spacing sep) : Written [] sep
  | begun {t : Token} {ts : List Token} {sep cs : List Char} (h : sep = [] ∨ Spacing sep)
      (more : Spread ts cs) : Written (t :: ts) (sep ++ (t.spelling.toList ++ cs))

theorem separator_of_optional {sep : List Char} (h : sep = [] ∨ Spacing sep) : Separator sep := by
  rcases h with rfl | h
  · exact .nil
  · exact h.separator

/-- A text and the same text with every tab replaced by one or more spaces. -/
inductive Expansion : List Char → List Char → Prop
  | nil : Expansion [] []
  | char {c : Char} {cs ds : List Char} (hc : c ≠ '\t') (h : Expansion cs ds) :
      Expansion (c :: cs) (c :: ds)
  | tab {cs ds : List Char} (n : Nat) (h : Expansion cs ds) :
      Expansion ('\t' :: cs) (List.replicate (n + 1) ' ' ++ ds)

namespace Expansion

theorem expandTabsFrom (column : Nat) (cs : List Char) :
    Expansion cs (Text.expandTabsFrom column cs) := by
  induction cs generalizing column with
  | nil => exact .nil
  | cons c cs ih =>
    by_cases hc : c = '\t'
    · subst hc
      have hw : 8 - column % 8 = (7 - column % 8) + 1 := by omega
      simp only [Text.expandTabsFrom]
      rw [hw]
      exact .tab _ (ih _)
    · rw [Text.expandTabsFrom.eq_3 _ _ _ (by simpa using hc)]
      exact .char hc (ih _)

theorem length_le {cs ds : List Char} (h : Expansion cs ds) : cs.length ≤ ds.length := by
  induction h with
  | nil => exact Nat.le_refl _
  | char hc h ih => simpa using ih
  | tab n h ih =>
    simp only [List.length_cons, List.length_append, List.length_replicate]
    omega

theorem eq_nil {cs : List Char} (h : Expansion cs []) : cs = [] := by
  have hl := h.length_le
  simpa using hl

/-- Characters other than tabs are kept. -/
theorem cons_of_ne {c : Char} {cs ds : List Char} (h : Expansion (c :: cs) ds) (hc : c ≠ '\t') :
    ∃ es, ds = c :: es ∧ Expansion cs es := by
  cases h with
  | char _ h => exact ⟨_, rfl, h⟩
  | tab n h => exact absurd rfl hc

/-- Characters other than spaces were there before. -/
theorem of_cons_ne {d : Char} {cs ds : List Char} (h : Expansion cs (d :: ds)) (hd : d ≠ ' ') :
    ∃ bs, cs = d :: bs ∧ Expansion bs ds := by
  generalize he : d :: ds = es at h
  cases h with
  | nil => cases he
  | char _ h =>
    obtain ⟨rfl, rfl⟩ := List.cons.inj he
    exact ⟨_, rfl, h⟩
  | tab n h =>
    rw [List.replicate_succ, List.cons_append] at he
    exact absurd (List.cons.inj he).1 hd

theorem append_of_ne {s cs ds : List Char} (h : Expansion (s ++ cs) ds) (hs : ∀ c ∈ s, c ≠ '\t') :
    ∃ es, ds = s ++ es ∧ Expansion cs es := by
  induction s generalizing ds with
  | nil => exact ⟨ds, rfl, h⟩
  | cons c s ih =>
    obtain ⟨es, rfl, he⟩ := cons_of_ne h (hs c (by simp))
    obtain ⟨fs, rfl, hf⟩ := ih he (fun d hd => hs d (by simp [hd]))
    exact ⟨fs, rfl, hf⟩

theorem of_append_ne {s cs ds : List Char} (h : Expansion cs (s ++ ds)) (hs : ∀ c ∈ s, c ≠ ' ') :
    ∃ bs, cs = s ++ bs ∧ Expansion bs ds := by
  induction s generalizing cs with
  | nil => exact ⟨cs, rfl, h⟩
  | cons c s ih =>
    obtain ⟨bs, rfl, hb⟩ := of_cons_ne h (hs c (by simp))
    obtain ⟨as, rfl, ha⟩ := ih hb (fun d hd => hs d (by simp [hd]))
    exact ⟨as, rfl, ha⟩

end Expansion

section Scanning

variable (origin before p : Position)

theorem scan_gap_blank {c : Char} (hc : Text.isBlank c) (cs : List Char) :
    scanGap origin before p (c :: cs) = scanGap origin before (p.next c) cs := by
  rw [scanGap.eq_3, if_pos hc]
  intro ds hs
  subst hs
  exact absurd hc (by decide)

theorem scan_gap_stop {c : Char} (hc : ¬ Text.isBlank c) {cs : List Char}
    (hs : ∀ ds, c = '/' → cs = '/' :: ds → False) :
    (scanGap origin before p (c :: cs)).2 = c :: cs := by
  rw [scanGap.eq_3 _ _ _ _ _ hs, if_neg hc]

theorem scan_gap_spaces (n : Nat) (cs : List Char) :
    ∃ q, scanGap origin before p (List.replicate n ' ' ++ cs) = scanGap origin before q cs := by
  induction n generalizing p with
  | zero => exact ⟨p, rfl⟩
  | succ n ih =>
    rw [List.replicate_succ, List.cons_append, scan_gap_blank _ _ _ (by decide)]
    exact ih _

theorem scan_comment_spaces (n : Nat) (cs : List Char) :
    ∃ q, scanComment origin p (List.replicate n ' ' ++ cs) = scanComment origin q cs := by
  induction n generalizing p with
  | zero => exact ⟨p, rfl⟩
  | succ n ih =>
    rw [List.replicate_succ, List.cons_append, scanComment.eq_4 _ _ _ _ (by simp) (by simp)]
    exact ih _

end Scanning

/-- A gap ends at the same place of a text, whichever way its tabs are expanded. -/
theorem scan_gap_expansion (origin origin' before before' p p' : Position) {cs ds : List Char}
    (h : Expansion cs ds) :
    Expansion (scanGap origin before p cs).2 (scanGap origin' before' p' ds).2 := by
  revert before' p' ds
  refine scanGap.induct
    (fun before p cs => ∀ before' p' ds, Expansion cs ds →
      Expansion (scanGap origin before p cs).2 (scanGap origin' before' p' ds).2)
    (fun p cs => ∀ p' ds, Expansion cs ds →
      Expansion (scanComment origin p cs).2 (scanComment origin' p' ds).2)
    ?nil ?slashes ?blank ?stop ?ended ?continued ?newline ?char before p cs
  case nil =>
    intro _ _ _ _ ds h
    cases h with
    | nil => exact .nil
  case slashes =>
    intro _ _ cs ih _ _ ds h
    obtain ⟨es, rfl, he⟩ := h.cons_of_ne (by simp)
    obtain ⟨fs, rfl, hf⟩ := he.cons_of_ne (by simp)
    rw [scanGap.eq_2, scanGap.eq_2]
    exact ih _ _ hf
  case blank =>
    intro before p c cs _ hc ih before' p' ds h
    rw [scan_gap_blank _ _ _ hc]
    cases h with
    | char _ h =>
      rw [scan_gap_blank _ _ _ hc]
      exact ih _ _ _ h
    | tab n h =>
      obtain ⟨q, hq⟩ := scan_gap_spaces origin' before' p' (n + 1) _
      rw [hq]
      exact ih _ _ _ h
  case stop =>
    intro before p c cs hs hc before' p' ds h
    have ht : c ≠ '\t' := by
      intro he
      subst he
      exact hc (by decide)
    obtain ⟨es, rfl, h'⟩ := h.cons_of_ne ht
    rw [scan_gap_stop _ _ _ hc hs, scan_gap_stop _ _ _ hc]
    · exact h
    · intro fs hf he
      subst he
      obtain ⟨bs, rfl, _⟩ := h'.of_cons_ne (by simp)
      exact hs bs hf rfl
  case ended =>
    intro _ _ ds h
    cases h with
    | nil => exact .nil
  case continued =>
    intro _ cs ih _ ds h
    obtain ⟨es, rfl, he⟩ := h.cons_of_ne (by simp)
    obtain ⟨fs, rfl, hf⟩ := he.cons_of_ne (by simp)
    rw [scanComment.eq_2, scanComment.eq_2]
    exact ih _ _ hf
  case newline =>
    intro _ cs ih _ ds h
    obtain ⟨es, rfl, he⟩ := h.cons_of_ne (by simp)
    rw [scanComment.eq_3, scanComment.eq_3]
    exact ih _ _ _ he
  case char =>
    intro p c cs hb hn ih p' ds h
    rw [scanComment.eq_4 _ _ _ _ hb hn]
    cases h with
    | char _ h =>
      rw [scanComment.eq_4 _ _ _ _ _ hn]
      · exact ih _ _ h
      · intro fs hf he
        subst he
        obtain ⟨bs, rfl, _⟩ := h.of_cons_ne (by simp)
        exact hb bs hf rfl
    | tab n h =>
      obtain ⟨q, hq⟩ := scan_comment_spaces origin' p' (n + 1) _
      rw [hq]
      exact ih _ _ h

theorem Trailer.blank {c : Char} (hc : Text.isBlank c) {cs : List Char} (h : Trailer cs) :
    Trailer (c :: cs) := by
  cases h with
  | closed h => exact .closed (.blank hc h)
  | comment h ht => exact .comment (.blank hc h) ht

theorem Trailer.newline {text : List Char} (ht : CommentText text) (he : text.getLast? ≠ some '\\')
    {cs : List Char} (h : Trailer cs) : Trailer ('/' :: '/' :: (text ++ '\n' :: cs)) := by
  cases h with
  | closed h => exact .closed (.comment ht he h)
  | @comment ds more h hm =>
    have hs := Trailer.comment (.comment ht he h) hm
    simpa using hs

/-- What is passed over before `rest` is a separator, and at the end of the text a trailer. -/
structure Passed (sep rest : List Char) : Prop where
  trailer : Trailer sep
  separator : rest ≠ [] → Separator sep

theorem scan_gap_passes (origin before p : Position) (cs : List Char) :
    ∃ sep, cs = sep ++ (scanGap origin before p cs).2 ∧
      Passed sep (scanGap origin before p cs).2 := by
  refine scanGap.induct
    (fun before p cs => ∃ sep, cs = sep ++ (scanGap origin before p cs).2 ∧
      Passed sep (scanGap origin before p cs).2)
    (fun p cs => ∃ text, CommentText text ∧
      ((cs = text ∧ (scanComment origin p cs).2 = []) ∨
        ∃ sep, cs = text ++ '\n' :: (sep ++ (scanComment origin p cs).2) ∧
          text.getLast? ≠ some '\\' ∧ Passed sep (scanComment origin p cs).2))
    ?nil ?slashes ?blank ?stop ?ended ?continued ?newline ?char before p cs
  case nil => exact fun _ _ => ⟨[], rfl, .closed .nil, fun _ => .nil⟩
  case slashes =>
    intro _ p cs ⟨text, ht, hc⟩
    rw [scanGap.eq_2]
    rcases hc with ⟨rfl, he⟩ | ⟨sep, hc, he, hp⟩
    · refine ⟨'/' :: '/' :: cs, by rw [he]; simp, .comment .nil ht, ?_⟩
      intro hr
      exact absurd he hr
    · refine ⟨'/' :: '/' :: (text ++ '\n' :: sep), ?_, hp.trailer.newline ht he, ?_⟩
      · simpa using hc
      · intro hr
        exact .comment ht he (hp.separator hr)
  case blank =>
    intro before p c cs _ hc ⟨sep, hs, hp⟩
    rw [scan_gap_blank _ _ _ hc]
    refine ⟨c :: sep, by simpa using hs, hp.trailer.blank hc, ?_⟩
    intro hr
    exact .blank hc (hp.separator hr)
  case stop =>
    intro before p c cs hs hc
    rw [scan_gap_stop _ _ _ hc hs]
    exact ⟨[], rfl, .closed .nil, fun _ => .nil⟩
  case ended => exact fun _ => ⟨[], .nil, .inl ⟨rfl, rfl⟩⟩
  case continued =>
    intro p cs ⟨text, ht, hc⟩
    rw [scanComment.eq_2]
    refine ⟨'\\' :: '\n' :: text, .continued ht, ?_⟩
    rcases hc with ⟨rfl, he⟩ | ⟨sep, hc, he, hp⟩
    · exact .inl ⟨rfl, he⟩
    · refine .inr ⟨sep, by simpa using hc, ?_, hp⟩
      intro hl
      cases ht with
      | nil => simp at hl
      | char _ _ => exact he (by simpa using hl)
      | continued _ => exact he (by simpa using hl)
  case newline =>
    intro p cs ⟨sep, hs, hp⟩
    rw [scanComment.eq_3]
    exact ⟨[], .nil, .inr ⟨sep, by simpa using hs, by simp, hp⟩⟩
  case char =>
    intro p c cs hb hn ⟨text, ht, hc⟩
    rw [scanComment.eq_4 _ _ _ _ hb hn]
    refine ⟨c :: text, .char hn ht, ?_⟩
    rcases hc with ⟨rfl, he⟩ | ⟨sep, hc, he, hp⟩
    · exact .inl ⟨rfl, he⟩
    · refine .inr ⟨sep, by simpa using hc, ?_, hp⟩
      intro hl
      cases text with
      | nil => exact hb _ (by simpa using hl) hc
      | cons d text => exact he (by simpa using hl)

/-- A comment is passed over to the newline that ends it. -/
theorem scan_comment_newline (origin p : Position) {text : List Char} (ht : CommentText text)
    (he : text.getLast? ≠ some '\\') (cs : List Char) :
    ∃ before q, scanComment origin p (text ++ '\n' :: cs) = scanGap origin before q cs := by
  induction ht generalizing p with
  | nil => exact ⟨_, _, scanComment.eq_3 _ _ _⟩
  | @char c text hc ht ih =>
    have hb : ∀ ds, c = '\\' → text ++ '\n' :: cs = '\n' :: ds → False := by
      intro ds hs hd
      cases ht with
      | nil => exact he (by simp [hs])
      | char hn _ => exact hn (by simpa using congrArg List.head? hd)
      | continued _ => simp at hd
    rw [List.cons_append, scanComment.eq_4 _ _ _ _ hb hc]
    apply ih
    intro hl
    cases text with
    | nil => simp at hl
    | cons d text => exact he (by simpa using hl)
  | @continued text ht ih =>
    rw [List.cons_append, List.cons_append, scanComment.eq_2]
    apply ih
    intro hl
    cases text with
    | nil => simp at hl
    | cons d text => exact he (by simpa using hl)

/-- A separator is passed over up to what stops a gap. -/
theorem scan_gap_separator (origin : Position) {sep : List Char} (h : Separator sep)
    (rest : List Char) (hr : ∀ before p, (scanGap origin before p rest).2 = rest)
    (before p : Position) : (scanGap origin before p (sep ++ rest)).2 = rest := by
  induction h generalizing before p with
  | nil => exact hr before p
  | blank hc _ ih =>
    rw [List.cons_append, scan_gap_blank _ _ _ hc]
    exact ih _ _
  | @comment text cs ht he _ ih =>
    obtain ⟨b, q, hq⟩ := scan_comment_newline origin ((p.next '/').next '/') ht he (cs ++ rest)
    have happ : '/' :: '/' :: (text ++ '\n' :: cs) ++ rest =
        '/' :: '/' :: (text ++ '\n' :: (cs ++ rest)) := by simp
    rw [happ, scanGap.eq_2, hq]
    exact ih _ _

end Bronti.Syntax
