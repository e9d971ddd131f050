import Bronti.Proofs.Placement

/-!
Texts cut off before a token. What was read up to there does not change, as nothing looks further
ahead than the next character; only a keyword that a `$` touches would be one again without it.
-/
namespace Bronti.Syntax

open Text (Position)

/-! ## Gaps -/

theorem behindGap_separator {sep : List Char} (h : Separator sep) (rest : List Char) :
    behindGap (sep ++ rest) = behindGap rest := by
  induction h with
  | nil => rfl
  | blank hc _ ih =>
    rw [List.cons_append, behindGap, scan_gap_blank _ _ _ hc, scan_gap_behind]
    exact ih
  | @comment text cs ht he _ ih =>
    obtain ⟨b, q, hq⟩ := scan_comment_newline .start ((Position.start.next '/').next '/') ht he
      (cs ++ rest)
    have happ : '/' :: '/' :: (text ++ '\n' :: cs) ++ rest =
        '/' :: '/' :: (text ++ '\n' :: (cs ++ rest)) := by simp
    rw [happ, behindGap, scanGap.eq_2, hq, scan_gap_behind]
    exact ih

theorem scan_comment_text (origin p : Position) {text : List Char} (h : CommentText text) :
    (scanComment origin p text).2 = [] := by
  induction h generalizing p with
  | nil => rfl
  | @char c cs hc h ih =>
    by_cases hb : ∃ ds, c = '\\' ∧ cs = '\n' :: ds
    · obtain ⟨ds, rfl, rfl⟩ := hb
      cases h with
      | char hn _ => exact absurd rfl hn
    · rw [scanComment.eq_4 _ _ _ _ (fun ds hs hd => hb ⟨ds, hs, hd⟩) hc]
      exact ih _
  | continued _ ih =>
    rw [scanComment.eq_2]
    exact ih _

theorem behindGap_trailer {sep : List Char} (h : Trailer sep) : behindGap sep = [] := by
  cases h with
  | closed h =>
    have hend := behindGap_separator h []
    rw [List.append_nil] at hend
    exact hend
  | comment h ht =>
    rw [behindGap_separator h, behindGap, scanGap.eq_2]
    exact scan_comment_text _ _ ht

/-- Where a gap ends, it ends also if the text behind is cut off. -/
theorem behindGap_stop {kept rest cs : List Char} (h : behindGap cs = kept ++ rest) :
    behindGap kept = kept := by
  cases kept with
  | nil => rfl
  | cons c kept =>
    obtain ⟨hc, hslash⟩ := behindGap_head cs c (kept ++ rest) h
    refine scan_gap_stop _ _ _ hc fun ds he hs => ?_
    subst hs
    exact hslash he rfl

theorem behindGap_cut {cs kept rest : List Char} (h : behindGap cs = kept ++ rest) :
    ∃ sep, cs = sep ++ (kept ++ rest) ∧ behindGap (sep ++ kept) = kept := by
  obtain ⟨sep, hcs, hpass⟩ := scan_gap_passes .start .start .start cs
  have hrest : (scanGap .start .start .start cs).2 = kept ++ rest := h
  rw [hrest] at hcs hpass
  refine ⟨sep, hcs, ?_⟩
  by_cases hk : kept = []
  · subst hk
    rw [List.append_nil]
    exact behindGap_trailer hpass.trailer
  · rw [behindGap_separator (hpass.separator (by simp [hk]))]
    exact behindGap_stop h

/-! ## Tokens -/

namespace Token

theorem takeWhile_cut {p : Char → Bool} {word kept rest : List Char}
    (hw : (word ++ (kept ++ rest)).takeWhile p = word) :
    (word ++ kept).takeWhile p = word ∧ (word ++ kept).dropWhile p = kept := by
  have hall : ∀ c ∈ word, p c := by
    rw [← hw]
    exact List.all_eq_true.mp List.all_takeWhile
  rw [List.takeWhile_append_of_pos hall] at hw ⊢
  rw [List.dropWhile_append_of_pos hall]
  cases kept with
  | nil => simp
  | cons c kept =>
    have hnil : (c :: (kept ++ rest)).takeWhile p = [] := by simpa using hw
    have hc : p c = false := by
      by_contra hp
      rw [List.takeWhile_cons_of_pos (by simpa using hp)] at hnil
      cases hnil
    simp [hc]

theorem word_cut {word kept rest : List Char} (hs : ∃ c ds, word = c :: ds ∧ Text.isNameStart c)
    (hw : (word ++ (kept ++ rest)).takeWhile Text.isNameChar = word)
    (ht : (ofWord (String.ofList word) (kept ++ rest)).Proper) :
    read? (word ++ kept) = some (ofWord (String.ofList word) (kept ++ rest), kept) := by
  obtain ⟨htake, hdrop⟩ := takeWhile_cut hw
  have hsame : ofWord (String.ofList word) kept = ofWord (String.ofList word) (kept ++ rest) := by
    unfold ofWord at ht ⊢
    cases hk : Keyword.ofSpelling? (String.ofList word) with
    | none => rfl
    | some k =>
      simp only [hk] at ht ⊢
      by_cases hd : (kept ++ rest).head? = some '$'
      · rw [if_pos hd] at ht
        exact absurd (Keyword.of_spelling_iff.mp hk) (ht.free k)
      · have hkept : kept.head? ≠ some '$' := by
          intro hhead
          exact hd (by simp [hhead])
        rw [if_neg hd, if_neg hkept]
  obtain ⟨c, ds, rfl, hc⟩ := hs
  unfold read?
  rw [htake, hdrop]
  simp only [List.cons_append, hc, ↓reduceIte, hsame]

theorem literal_of_digits {digits after left : List Char} {t : Token}
    (h : ofDigits? digits after = some (t, left)) : ∃ s, t = .literal s := by
  unfold ofDigits? at h
  split at h
  · split at h
    · split at h
      · split at h
        · cases h
        · exact ⟨_, (Prod.mk.inj (Option.some.inj h)).1.symm⟩
      · cases h
    · exact ⟨_, (Prod.mk.inj (Option.some.inj h)).1.symm⟩
  · exact ⟨_, (Prod.mk.inj (Option.some.inj h)).1.symm⟩

/-- A run of digits is read as a literal of all of them before what begins with neither a letter nor
a digit. -/
theorem read_digits {digits kept rest : List Char} (hne : digits ≠ [])
    (hall : ∀ c ∈ digits, Text.isDigit c)
    (hw : (digits ++ (kept ++ rest)).takeWhile Text.isDigit = digits)
    (hname : ∀ c ∈ kept.head?, Text.isNameStart c = false) :
    read? (digits ++ kept) = some (literal (String.ofList digits), kept) := by
  obtain ⟨htake, hdrop⟩ := takeWhile_cut hw
  obtain ⟨c, ds, hcs⟩ := List.exists_cons_of_ne_nil hne
  have hc : Text.isDigit c := hall c (by simp [hcs])
  unfold read?
  rw [htake, hdrop]
  simp only [hcs, List.cons_append, not_name_start_of_digit hc, hc, Bool.false_eq_true, ↓reduceIte]
  cases kept with
  | nil => rfl
  | cons e kept => simp [ofDigits?, hname e rfl]

/-- A literal that leaves its last digit, before a letter, is read also without what it leaves. -/
theorem read_shortened {digits : List Char} (hall : ∀ c ∈ digits, Text.isDigit c)
    (hlen : ¬ digits.length ≤ 1) :
    read? digits.dropLast = some (literal (String.ofList digits.dropLast), []) := by
  have hproper : IsLiteral (String.ofList digits.dropLast) := by
    refine ⟨?_, ?_⟩
    · intro hempty
      have hzero := congrArg List.length hempty
      simp at hzero
      omega
    · intro e he
      exact hall e (List.dropLast_subset _ (by simpa using he))
  have hclear : Clear [] := by simp [Clear]
  have hread := read_literal hproper hclear
  rwa [List.append_nil, String.toList_ofList] at hread

theorem digits_cut {digits after kept rest : List Char} {t : Token} (hne : digits ≠ [])
    (hw : (digits ++ after).takeWhile Text.isDigit = digits)
    (h : ofDigits? digits after = some (t, kept ++ rest))
    (hd : ∀ d ∈ kept.head?, ¬ Text.isDigit d) :
    read? (t.spelling.toList ++ kept) = some (t, kept) := by
  have hall : ∀ c ∈ digits, Text.isDigit c := by
    rw [← hw]
    exact List.all_eq_true.mp List.all_takeWhile
  unfold ofDigits? at h
  split at h
  · next c after =>
    split at h
    · next hname =>
      split at h
      · next d hlast =>
        split at h
        · cases h
        · next hlen =>
          obtain ⟨rfl, hleft⟩ := Prod.mk.inj (Option.some.inj h)
          have hmem : d ∈ digits := List.mem_of_getLast? hlast
          have hnil : kept = [] := by
            cases kept with
            | nil => rfl
            | cons e kept =>
              obtain ⟨rfl, -⟩ := List.cons.inj hleft
              exact absurd (hall d hmem) (hd d rfl)
          subst hnil
          simpa [spelling] using read_shortened hall hlen
      · cases h
    · next hname =>
      obtain ⟨rfl, hafter⟩ := Prod.mk.inj (Option.some.inj h)
      rw [hafter] at hw
      simp only [spelling, String.toList_ofList]
      refine read_digits hne hall hw fun e he => ?_
      cases kept with
      | nil => cases he
      | cons f kept =>
        obtain ⟨rfl, -⟩ := List.cons.inj hafter
        obtain rfl := Option.some.inj he
        simpa using hname
  · obtain ⟨rfl, hafter⟩ := Prod.mk.inj (Option.some.inj h)
    rw [hafter] at hw
    simp only [spelling, String.toList_ofList]
    refine read_digits hne hall hw fun e he => ?_
    have hnil : kept = [] := (List.append_eq_nil_iff.mp hafter.symm).1
    simp [hnil] at he

theorem symbols_cut {cs kept rest : List Char} {t : Token}
    (h : ofSymbols? cs = some (t, kept ++ rest)) :
    ofSymbols? (t.spelling.toList ++ kept) = some (t, kept) := by
  have hkept : ∀ {c : Char}, (∀ ds, kept ++ rest = c :: ds → False) →
      ∀ ds, kept = c :: ds → False := by
    intro c hes ds hk
    exact hes (ds ++ rest) (by simp [hk])
  unfold ofSymbols? at h
  split at h <;> cases h
  -- these three look at the next character, which is no equals sign then either
  case h_7.refl _ hs => exact ofSymbols?.eq_7 _ (hkept hs)
  case h_8.refl _ hs => exact ofSymbols?.eq_8 _ (hkept hs)
  case h_19.refl _ hs => exact ofSymbols?.eq_19 _ (hkept hs)
  all_goals rfl

/-- A token is read also from a text that is cut off behind it, if it is no keyword without a `$`
behind it and no literal that is cut short. -/
theorem read_cut {cs kept rest : List Char} {t : Token} (h : read? cs = some (t, kept ++ rest))
    (ht : t.Proper) (hd : (∃ s, t = .literal s) → ∀ d ∈ kept.head?, ¬ Text.isDigit d) :
    read? (t.spelling.toList ++ kept) = some (t, kept) := by
  have htext := (reads_of_read h).text
  unfold read? at h
  split at h
  · cases h
  · next c ds =>
    split at h
    · next hs =>
      have hsplit : (c :: ds).takeWhile Text.isNameChar ++ (c :: ds).dropWhile Text.isNameChar =
          c :: ds := List.takeWhile_append_dropWhile
      have hfirst : (c :: ds).takeWhile Text.isNameChar = c :: ds.takeWhile Text.isNameChar :=
        List.takeWhile_cons_of_pos (Text.isNameChar_of_isNameStart hs)
      obtain ⟨hword, hafter⟩ := Prod.mk.inj (Option.some.inj h)
      rw [hafter] at hword hsplit
      rw [← hword] at ht
      have hspelled : t.spelling.toList = (c :: ds).takeWhile Text.isNameChar :=
        List.append_cancel_right (htext.symm.trans hsplit.symm)
      rw [hspelled, ← hword]
      exact word_cut ⟨c, _, hfirst, hs⟩ (by rw [hsplit]) ht
    · split at h
      · next hdigit =>
        have hsplit : (c :: ds).takeWhile Text.isDigit ++ (c :: ds).dropWhile Text.isDigit =
            c :: ds := List.takeWhile_append_dropWhile
        have hfirst : (c :: ds).takeWhile Text.isDigit = c :: ds.takeWhile Text.isDigit :=
          List.takeWhile_cons_of_pos hdigit
        exact digits_cut (by simp [hfirst]) (by rw [hsplit]) h (hd (literal_of_digits h))
      · next hc hdigit =>
        obtain ⟨e, es, hspelled, -⟩ := spelling_head ht
        have he : c = e := by
          rw [hspelled] at htext
          exact (List.cons.inj htext).1
        have hsymbols := symbols_cut h
        subst he
        rw [hspelled, List.cons_append] at hsymbols ⊢
        simpa [read?, hc, hdigit] using hsymbols

/-- A digit behind a literal begins no token, as a letter touches it. -/
theorem unread_of_literal {cs after : List Char} {s : String}
    (h : read? cs = some (.literal s, after)) {d : Char} (ha : after.head? = some d)
    (hd : Text.isDigit d) : read? after = none := by
  obtain ⟨more, rfl⟩ := List.head?_eq_some_iff.mp ha
  unfold read? at h
  split at h
  · cases h
  · next c ds =>
    split at h
    · have hword := (Prod.mk.inj (Option.some.inj h)).1
      unfold ofWord at hword
      split at hword
      · split at hword <;> cases hword
      · cases hword
    · split at h
      · have hhead : ∀ e ∈ ((c :: ds).dropWhile Text.isDigit).head?, Text.isDigit e = false := by
          intro e he
          have hstop := List.head?_dropWhile_not Text.isDigit (c :: ds)
          rw [Option.mem_def.mp he] at hstop
          exact hstop
        generalize (c :: ds).dropWhile Text.isDigit = left at h hhead
        generalize (c :: ds).takeWhile Text.isDigit = digits at h
        unfold ofDigits? at h
        split at h
        · next e left =>
          split at h
          · next hname =>
            split at h
            · split at h
              · cases h
              · obtain ⟨rfl, rfl⟩ := List.cons.inj (Prod.mk.inj (Option.some.inj h)).2
                have hletter : Text.isDigit e = false := hhead e rfl
                simp [read?, not_name_start_of_digit hd, hd, hletter, ofDigits?, hname]
            · cases h
          · obtain ⟨rfl, rfl⟩ := List.cons.inj (Prod.mk.inj (Option.some.inj h)).2
            simp [hhead e rfl] at hd
        · cases h
      · unfold ofSymbols? at h
        split at h <;> cases h

end Token

/-! ## Texts cut off -/

/-- Somewhere in a text a `$` touches a keyword, which is a name there. -/
def KeywordTouched (cs : List Char) : Prop :=
  ∃ (ts : List Token) (left : List Char) (k : Keyword) (rest : List Char), LexedTo ts cs left ∧
    behindGap left = k.spelling.toList ++ '$' :: rest

namespace LexedTo

variable {ts : List Token} {cs after : List Char}

/-- The names and literals of a text are proper, unless a `$` touches a keyword. -/
theorem proper (h : LexedTo ts cs after) (hk : ¬ KeywordTouched cs) : ∀ t ∈ ts, t.Proper := by
  induction h with
  | nil => simp
  | @token t ts cs mid after hread more ih =>
    have hmore : ¬ KeywordTouched mid := by
      rintro ⟨us, left, k, rest, hto, hgap⟩
      exact hk ⟨t :: us, left, k, rest, .token hread hto, hgap⟩
    refine List.forall_mem_cons.mpr ⟨?_, ih hmore⟩
    have hreads := Token.reads_of_read hread
    rcases hreads.proper with ht | ⟨hd, k, rfl⟩
    · exact ht
    · obtain ⟨rest, rfl⟩ := List.head?_eq_some_iff.mp hd
      exact absurd ⟨[], cs, k, rest, .nil, hreads.text⟩ hk

/-- A text that is cut off behind some of its tokens, before the next one, is just these tokens. -/
theorem cut (h : LexedTo ts cs after) (ht : ∀ t ∈ ts, t.Proper) :
    ∃ kept, cs = kept ++ behindGap after ∧ Lexed ts kept := by
  induction h with
  | @nil cs =>
    have hnone : behindGap cs = [] ++ behindGap cs := rfl
    obtain ⟨sep, hcs, hsep⟩ := behindGap_cut hnone
    exact ⟨sep, hcs, .done (by simpa using hsep)⟩
  | @token t ts cs mid after hread more ih =>
    obtain ⟨kept, hmid, hlexed⟩ := ih fun u hu => ht u (by simp [hu])
    have hproper := ht t (by simp)
    have htext := (Token.reads_of_read hread).text
    have hbehind : behindGap cs = (t.spelling.toList ++ kept) ++ behindGap after := by
      rw [htext, List.append_assoc, ← hmid]
    obtain ⟨sep, hcs, hsep⟩ := behindGap_cut hbehind
    refine ⟨sep ++ (t.spelling.toList ++ kept), by simpa using hcs, .token ?_ hlexed⟩
    rw [hsep]
    refine Token.read_cut (hmid ▸ hread) hproper ?_
    rintro ⟨s, rfl⟩ d hd hdigit
    -- a digit behind the literal is no token, so that nothing of the text behind it is kept
    have hhead : mid.head? = some d := by
      rw [hmid]
      simp [Option.mem_def.mp hd]
    have hunread := Token.unread_of_literal hread hhead hdigit
    have hgap : behindGap mid = mid := by
      obtain ⟨es, rfl⟩ := List.head?_eq_some_iff.mp hhead
      refine scan_gap_stop _ _ _ (not_blank_of_digit hdigit) ?_
      rintro ds rfl _
      revert hdigit
      decide
    cases more with
    | nil =>
      rw [hgap] at hmid
      have hnil : kept = [] := by simpa using hmid.symm
      simp [hnil] at hd
    | token hnext _ =>
      rw [hgap, hunread] at hnext
      cases hnext

end LexedTo

end Bronti.Syntax
