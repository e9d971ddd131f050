import Bronti.Proofs.ReadingApart

/-!
Texts joined by a newline. A newline ends every token and, unless a backslash stands before it,
every comment, so that two texts with a newline between them have the tokens of the first and then those
of the second; and they are read as the statements of the first and then those of the second.
-/
namespace Bronti.Syntax

open Text (Position)

/-- The tokens of a text, whose tabs are expanded first. -/
def tokensOf (text : String) : List Token :=
  (Cursor.ofText (Text.expandTabs text.toList)).tokens

/-- The text ends in a comment whose last character is a backslash, which takes a newline behind it
into the comment. -/
def EndsInOpenComment (cs : List Char) : Prop :=
  ∃ front text, cs = front ++ '/' :: '/' :: text ∧ CommentText text ∧ text.getLast? = some '\\'

/-! ## Gaps -/

/-- What is left of a text behind the gap at its front. -/
def behindGap (cs : List Char) : List Char := (scanGap .start .start .start cs).2

/-- Where a gap ends does not depend on the place at which it begins. -/
theorem scan_gap_behind (origin before p : Position) (cs : List Char) :
    (scanGap origin before p cs).2 = behindGap cs := by
  unfold behindGap
  suffices h : ∀ origin' before' p',
      (scanGap origin before p cs).2 = (scanGap origin' before' p' cs).2 from h _ _ _
  refine scanGap.induct
    (fun before p cs => ∀ origin' before' p',
      (scanGap origin before p cs).2 = (scanGap origin' before' p' cs).2)
    (fun p cs => ∀ origin' p', (scanComment origin p cs).2 = (scanComment origin' p' cs).2)
    ?nil ?slashes ?blank ?stop ?ended ?continued ?newline ?char before p cs
  case nil => exact fun _ _ _ _ _ => rfl
  case slashes =>
    intro _ _ cs ih _ _ _
    rw [scanGap.eq_2, scanGap.eq_2]
    exact ih _ _
  case blank =>
    intro _ _ c cs _ hc ih _ _ _
    rw [scan_gap_blank _ _ _ hc, scan_gap_blank _ _ _ hc]
    exact ih _ _ _
  case stop =>
    intro _ _ c cs hs hc _ _ _
    rw [scan_gap_stop _ _ _ hc hs, scan_gap_stop _ _ _ hc hs]
  case ended => exact fun _ _ _ => rfl
  case continued =>
    intro _ cs ih _ _
    rw [scanComment.eq_2, scanComment.eq_2]
    exact ih _ _
  case newline =>
    intro _ cs ih _ _
    rw [scanComment.eq_3, scanComment.eq_3]
    exact ih _ _ _
  case char =>
    intro _ c cs hb hn ih _ _
    rw [scanComment.eq_4 _ _ _ _ hb hn, scanComment.eq_4 _ _ _ _ hb hn]
    exact ih _ _

theorem last_of_tail {α : Type} {c x : α} {cs : List α} (h : (c :: cs).getLast? ≠ some x) :
    cs.getLast? ≠ some x := by
  intro hl
  exact h (by simp [List.getLast?_cons, hl])

/-- A character other than a newline that does not begin a text does not begin it with a newline and
more behind it. -/
theorem head_newline {c : Char} (hc : c ≠ '\n') {cs : List Char} (h : ∀ es, cs = c :: es → False)
    (ds : List Char) : ∀ es, cs ++ '\n' :: ds = c :: es → False := by
  intro es he
  cases cs with
  | nil => exact hc (List.cons.inj he).1.symm
  | cons d cs => exact h cs (by rw [(List.cons.inj he).1])

/-- A gap that reaches the end of a text goes on behind a newline, and any other ends where it
did. -/
theorem behindGap_newline {cs : List Char} (hl : cs.getLast? ≠ some '\\') (ds : List Char) :
    behindGap (cs ++ '\n' :: ds) =
      if behindGap cs = [] then behindGap ds else behindGap cs ++ '\n' :: ds := by
  revert hl
  refine scanGap.induct
    (fun before p cs => cs.getLast? ≠ some '\\' →
      (scanGap .start before p (cs ++ '\n' :: ds)).2 =
        if (scanGap .start before p cs).2 = [] then behindGap ds
        else (scanGap .start before p cs).2 ++ '\n' :: ds)
    (fun p cs => cs.getLast? ≠ some '\\' →
      (scanComment .start p (cs ++ '\n' :: ds)).2 =
        if (scanComment .start p cs).2 = [] then behindGap ds
        else (scanComment .start p cs).2 ++ '\n' :: ds)
    ?nil ?slashes ?blank ?stop ?ended ?continued ?newline ?char .start .start cs
  case nil =>
    intro before p _
    rw [List.nil_append, scan_gap_blank _ _ _ (by decide), scan_gap_behind]
    rfl
  case slashes =>
    intro before p cs ih hl
    rw [List.cons_append, List.cons_append, scanGap.eq_2, scanGap.eq_2]
    exact ih (last_of_tail (last_of_tail hl))
  case blank =>
    intro before p c cs _ hc ih hl
    rw [List.cons_append, scan_gap_blank _ _ _ hc, scan_gap_blank _ _ _ hc]
    exact ih (last_of_tail hl)
  case stop =>
    intro before p c cs hs hc _
    rw [scan_gap_stop _ _ _ hc hs, List.cons_append, scan_gap_stop _ _ _ hc]
    · rfl
    · exact fun es he => head_newline (by decide) (fun fs hf => hs fs he hf) ds es
  case ended =>
    intro p _
    rw [List.nil_append, scanComment.eq_3, scan_gap_behind]
    rfl
  case continued =>
    intro p cs ih hl
    rw [List.cons_append, List.cons_append, scanComment.eq_2, scanComment.eq_2]
    exact ih (last_of_tail (last_of_tail hl))
  case newline =>
    intro p cs ih hl
    rw [List.cons_append, scanComment.eq_3, scanComment.eq_3]
    exact ih (last_of_tail hl)
  case char =>
    intro p c cs hb hn ih hl
    rw [scanComment.eq_4 _ _ _ _ hb hn, List.cons_append, scanComment.eq_4 _ _ _ _ _ hn]
    · exact ih (last_of_tail hl)
    · intro es he hnewline
      cases cs with
      | nil => exact hl (by simp [he])
      | cons d cs => exact hb cs he (by rw [(List.cons.inj hnewline).1])

theorem behindGap_suffix (cs : List Char) : behindGap cs <:+ cs := by
  obtain ⟨sep, hs, -⟩ := scan_gap_passes .start .start .start cs
  exact ⟨sep, hs.symm⟩

/-! ## Tokens -/

namespace Token

theorem run_newline {p : Char → Bool} (hp : p '\n' = false) (cs ds : List Char) :
    (cs ++ '\n' :: ds).takeWhile p = cs.takeWhile p ∧
      (cs ++ '\n' :: ds).dropWhile p = cs.dropWhile p ++ '\n' :: ds := by
  induction cs with
  | nil => simp [hp]
  | cons c cs ih =>
    cases hc : p c with
    | true => simp [hc, ih]
    | false => simp [hc]

theorem ofWord_newline (word : String) (after ds : List Char) :
    ofWord word (after ++ '\n' :: ds) = ofWord word after := by
  cases after <;> rfl

theorem ofDigits_newline {digits after rest : List Char} {t : Token}
    (h : ofDigits? digits after = some (t, rest)) (ds : List Char) :
    ofDigits? digits (after ++ '\n' :: ds) = some (t, rest ++ '\n' :: ds) := by
  cases after with
  | nil =>
    obtain ⟨rfl, rfl⟩ := Prod.mk.inj (Option.some.inj h)
    rfl
  | cons c after =>
    unfold ofDigits? at h ⊢
    simp only [List.cons_append] at h ⊢
    split at h
    · next hc =>
      rw [if_pos hc]
      split at h
      · next d hd =>
        split at h
        · cases h
        · next hlen =>
          obtain ⟨rfl, rfl⟩ := Prod.mk.inj (Option.some.inj h)
          simp [hlen]
      · cases h
    · next hc =>
      obtain ⟨rfl, rfl⟩ := Prod.mk.inj (Option.some.inj h)
      rw [if_neg hc]
      rfl

theorem ofSymbols_newline {cs after : List Char} {t : Token} (h : ofSymbols? cs = some (t, after))
    (ds : List Char) : ofSymbols? (cs ++ '\n' :: ds) = some (t, after ++ '\n' :: ds) := by
  unfold ofSymbols? at h
  split at h <;> cases h
  -- these three look at the next character, which is no equals sign then either
  case h_7.refl _ hs => rw [List.cons_append, ofSymbols?.eq_7 _ (head_newline (by decide) hs ds)]
  case h_8.refl _ hs => rw [List.cons_append, ofSymbols?.eq_8 _ (head_newline (by decide) hs ds)]
  case h_19.refl _ hs => rw [List.cons_append, ofSymbols?.eq_19 _ (head_newline (by decide) hs ds)]
  all_goals rfl

/-- A token that is read from a text is read from it with a newline and more behind it. -/
theorem read_newline {cs after : List Char} {t : Token} (h : read? cs = some (t, after))
    (ds : List Char) : read? (cs ++ '\n' :: ds) = some (t, after ++ '\n' :: ds) := by
  cases cs with
  | nil => cases h
  | cons c cs =>
    have hword := run_newline (p := Text.isNameChar) rfl (c :: cs) ds
    have hdigits := run_newline (p := Text.isDigit) rfl (c :: cs) ds
    unfold read? at h ⊢
    simp only [List.cons_append] at h hword hdigits ⊢
    split at h
    · next hc =>
      obtain ⟨rfl, rfl⟩ := Prod.mk.inj (Option.some.inj h)
      rw [if_pos hc, hword.1, hword.2, ofWord_newline]
    · next hc =>
      rw [if_neg hc]
      split at h
      · next hd =>
        rw [if_pos hd, hdigits.1, hdigits.2]
        exact ofDigits_newline h ds
      · next hd =>
        rw [if_neg hd]
        exact ofSymbols_newline h ds

theorem backslash_not_spelled {t : Token} (h : t.Proper) : '\\' ∉ t.spelling.toList := by
  have hword : ¬ Text.isNameChar '\\' := by decide
  cases t with
  | keyword k => exact fun hm => hword (k.name_chars _ hm)
  | name s => exact fun hm => hword (h.chars _ hm)
  | literal s => exact fun hm => hword (by simp [Text.isNameChar, h.digits _ hm])
  | mark m => cases m <;> decide
  | operator o => cases o <;> decide

theorem read_shorter {cs after : List Char} {t : Token} (h : read? cs = some (t, after)) :
    after.length < cs.length := by
  have hread := reads_of_read h
  have hne : t.spelling.toList ≠ [] := by
    rcases hread.proper with ht | ⟨hd, -⟩
    · obtain ⟨c, ds, hc, -⟩ := spelling_head ht
      simp [hc]
    · intro hnil
      obtain ⟨ds, rfl⟩ := List.head?_eq_some_iff.mp hd
      rw [hread.text, hnil] at h
      cases h
  have hpos := List.length_pos_iff.mpr hne
  rw [hread.text, List.length_append]
  omega

end Token

/-! ## Texts that are tokens and gaps -/

/-- The text is these tokens, with gaps before, between and behind them. -/
inductive Lexed : List Token → List Char → Prop
  | done {cs : List Char} (h : behindGap cs = []) : Lexed [] cs
  | token {t : Token} {ts : List Token} {cs after : List Char}
      (h : Token.read? (behindGap cs) = some (t, after)) (more : Lexed ts after) :
      Lexed (t :: ts) cs

namespace Lexed

variable {ts us : List Token} {cs ds : List Char}

theorem of_lexemes {limit : Nat} {p : Position} (h : (lexemesFrom limit p cs).unread = []) :
    Lexed (lexemesFrom limit p cs).tokens cs := by
  induction limit generalizing p cs with
  | zero =>
    have hnil : cs = [] := h
    subst hnil
    exact .done rfl
  | succ limit ih =>
    cases hr : Token.read? (scanGap p p p cs).2 with
    | none =>
      obtain ⟨htokens, hunread⟩ := lexemes_stop limit hr
      rw [hunread, scan_gap_behind] at h
      rw [htokens]
      exact .done h
    | some r =>
      obtain ⟨q, htokens, hunread⟩ := lexemes_token limit hr
      rw [hunread] at h
      rw [scan_gap_behind] at hr
      rw [htokens]
      exact .token hr (ih h)

theorem lexemes (h : Lexed ts cs) {limit : Nat} (hl : ts.length < limit) (p : Position) :
    (lexemesFrom limit p cs).tokens = ts ∧ (lexemesFrom limit p cs).unread = [] := by
  obtain ⟨limit, rfl⟩ := Nat.exists_eq_succ_of_ne_zero (Nat.ne_of_gt (Nat.zero_lt_of_lt hl))
  induction h generalizing limit p with
  | @done cs h =>
    have hgap : (scanGap p p p cs).2 = [] := (scan_gap_behind p p p cs).trans h
    have hr : Token.read? (scanGap p p p cs).2 = none := by
      rw [hgap]
      rfl
    exact ⟨(lexemes_stop limit hr).1, (lexemes_stop limit hr).2.trans hgap⟩
  | @token t ts cs after h more ih =>
    have hr : Token.read? (scanGap p p p cs).2 = some (t, after) := by
      rw [scan_gap_behind, h]
    obtain ⟨q, htokens, hunread⟩ := lexemes_token limit hr
    have hshort : ts.length < limit := by simpa using hl
    obtain ⟨limit, rfl⟩ := Nat.exists_eq_succ_of_ne_zero (Nat.ne_of_gt (Nat.zero_lt_of_lt hshort))
    obtain ⟨hall, hend⟩ := ih q limit hshort
    exact ⟨by rw [htokens, hall], by rw [hunread, hend]⟩

theorem length_le (h : Lexed ts cs) : ts.length ≤ cs.length := by
  induction h with
  | done _ => exact Nat.zero_le _
  | @token t ts cs after h _ ih =>
    have hshort := Token.read_shorter h
    have hgap := (behindGap_suffix cs).length_le
    simp only [List.length_cons]
    omega

/-- Only what stands behind the gap matters. -/
theorem congr (h : Lexed ts ds) (hgap : behindGap cs = behindGap ds) : Lexed ts cs := by
  cases h with
  | done h => exact .done (hgap.trans h)
  | token h more => exact .token (hgap ▸ h) more

/-- Two texts with a newline between them are the tokens of the first and then those of the second,
unless a backslash takes the newline into a comment. -/
theorem newline (h : Lexed ts cs) (hl : cs.getLast? ≠ some '\\') (h' : Lexed us ds) :
    Lexed (ts ++ us) (cs ++ '\n' :: ds) := by
  induction h with
  | done h =>
    apply h'.congr
    rw [behindGap_newline hl, if_pos h]
  | @token t ts cs after h _ ih =>
    have hne : behindGap cs ≠ [] := by
      intro hnil
      rw [hnil] at h
      cases h
    have hafter : after.getLast? ≠ some '\\' := by
      intro hlast
      obtain ⟨sep, hsep⟩ := behindGap_suffix cs
      rw [← hsep, (Token.reads_of_read h).text] at hl
      simp [List.getLast?_append, hlast] at hl
    refine .token ?_ (ih hafter)
    rw [behindGap_newline hl, if_neg hne]
    exact Token.read_newline h ds

end Lexed

/-! ## Comments at the end of a text -/

theorem EndsInOpenComment.last {cs : List Char} (h : EndsInOpenComment cs) :
    cs.getLast? = some '\\' := by
  obtain ⟨front, text, rfl, -, hl⟩ := h
  simp [List.getLast?_append, List.getLast?_cons, hl]

theorem EndsInOpenComment.append {cs : List Char} (h : EndsInOpenComment cs) (front : List Char) :
    EndsInOpenComment (front ++ cs) := by
  obtain ⟨more, text, rfl, ht, hl⟩ := h
  exact ⟨front ++ more, text, by simp, ht, hl⟩

theorem Separator.last {cs : List Char} (h : Separator cs) : cs.getLast? ≠ some '\\' := by
  induction h with
  | nil => simp
  | @blank c cs hc _ ih =>
    have hne : c ≠ '\\' := by
      rintro rfl
      exact absurd hc (by decide)
    cases cs with
    | nil => simpa using hne
    | cons d ds => simpa using ih
  | @comment text cs _ _ _ ih =>
    cases cs with
    | nil => simp [List.getLast?_cons]
    | cons d ds => simpa [List.getLast?_cons] using ih

/-- A backslash can only be the last character of a text of tokens and gaps if the text ends in a
comment. -/
theorem Layout.last {ts : List Token} {cs : List Char} (h : Layout ts cs)
    (ht : ∀ t ∈ ts, t.Proper) (hl : cs.getLast? = some '\\') : EndsInOpenComment cs := by
  induction h with
  | done h =>
    cases h with
    | closed h => exact absurd hl h.last
    | @comment cs text _ htext =>
      refine ⟨cs, text, rfl, htext, ?_⟩
      cases text with
      | nil => simp at hl
      | cons c text => simpa using hl
  | @token t ts sep cs _ _ ih =>
    apply EndsInOpenComment.append
    apply EndsInOpenComment.append
    apply ih fun u hu => ht u (by simp [hu])
    obtain ⟨c, ds, hc, -⟩ := Token.spelling_head (ht t (by simp))
    cases cs with
    | nil =>
      have hmem : '\\' ∈ t.spelling.toList := by
        apply List.mem_of_getLast?
        rw [List.append_nil, hc] at hl
        simpa [hc] using hl
      exact absurd hmem (Token.backslash_not_spelled (ht t (by simp)))
    | cons d ds => simpa using hl

theorem Expansion.last {cs ds : List Char} (h : Expansion cs ds) {c : Char} (hc : c ≠ ' ')
    (hl : ds.getLast? = some c) : cs.getLast? = some c := by
  induction h with
  | nil => exact hl
  | @char d cs ds _ h ih =>
    cases ds with
    | nil =>
      rw [h.eq_nil]
      exact hl
    | cons e es =>
      have hlast := ih (by simpa using hl)
      simp [List.getLast?_cons, hlast]
  | @tab cs ds n _ ih =>
    cases ds with
    | nil =>
      simp only [List.append_nil, List.getLast?_replicate, Nat.succ_ne_zero, ↓reduceIte,
        Option.some.injEq] at hl
      exact absurd hl.symm hc
    | cons e es =>
      have hlast := ih (by simpa using hl)
      simp [List.getLast?_cons, hlast]

/-! ## Texts -/

theorem expandTabsFrom_newline (column : Nat) (cs ds : List Char) :
    Text.expandTabsFrom column (cs ++ '\n' :: ds) =
      Text.expandTabsFrom column cs ++ '\n' :: Text.expandTabsFrom 0 ds := by
  induction cs generalizing column with
  | nil => simp [Text.expandTabsFrom]
  | cons c cs ih =>
    by_cases hc : c = '\t'
    · subst hc
      simp [Text.expandTabsFrom, ih]
    · rw [List.cons_append, Text.expandTabsFrom.eq_3 _ _ _ (by simpa using hc),
        Text.expandTabsFrom.eq_3 _ _ _ (by simpa using hc), ih, List.cons_append]

theorem lexed_iff {text : String} {ts : List Token} :
    Lexed ts (Text.expandTabs text.toList) ↔ tokensOf text = ts ∧
      (Cursor.ofText (Text.expandTabs text.toList)).stray = false := by
  constructor
  · intro h
    obtain ⟨htokens, hunread⟩ := h.lexemes (Nat.lt_succ_of_le h.length_le) .start
    exact ⟨htokens, by simpa [Cursor.ofText, Lexemes.ofText] using hunread⟩
  · rintro ⟨rfl, hstray⟩
    have hunread : (Lexemes.ofText (Text.expandTabs text.toList)).unread = [] := by
      simpa [Cursor.ofText] using hstray
    exact .of_lexemes hunread

/-- The tokens of two texts that are tokens and gaps, with a newline between the texts. -/
theorem lexed_joined {a b : String} {ts us : List Token}
    (ha : Lexed ts (Text.expandTabs a.toList)) (hb : Lexed us (Text.expandTabs b.toList))
    (hcomment : ¬ EndsInOpenComment a.toList) :
    Lexed (ts ++ us) (Text.expandTabs (a ++ "\n" ++ b).toList) := by
  obtain ⟨rfl, hstray⟩ := lexed_iff.mp ha
  have hunread : (Lexemes.ofText (Text.expandTabs a.toList)).unread = [] := by
    simpa [Cursor.ofText] using hstray
  have hexpansion := Expansion.expandTabsFrom 0 a.toList
  obtain ⟨hlayout, hproper⟩ := lexemes_layout _ _ hexpansion hunread
  have hlast : (Text.expandTabs a.toList).getLast? ≠ some '\\' := fun hl =>
    hcomment (hlayout.last hproper (hexpansion.last (by decide) hl))
  have hchars : (a ++ "\n" ++ b).toList = a.toList ++ '\n' :: b.toList := by simp
  rw [hchars, Text.expandTabs, expandTabsFrom_newline]
  exact ha.newline hlast hb

/-! ## Programs -/

theorem Expr.last_name {e : Expr} (h : e.endsInReference = true) :
    ∃ s, e.tokens.getLast? = some (.name s) := by
  match e with
  | .reference s _ => exact ⟨s, rfl⟩
  | .operation left op right =>
    obtain ⟨s, hs⟩ := right.last_name h
    exact ⟨s, by simp [tokens, List.getLast?_append, List.getLast?_cons, hs]⟩

theorem Stmt.last_name {s : Stmt} (h : s.endsInReference = true) :
    ∃ x, s.tokens.getLast? = some (.name x) := by
  cases s with
  | declaration name initializer pos =>
    cases initializer with
    | none => cases h
    | some e =>
      obtain ⟨x, hx⟩ := Expr.last_name h
      exact ⟨x, by simp [tokens, List.getLast?_cons, hx]⟩
  | result value pos | assignment name value pos | expression value pos =>
    obtain ⟨x, hx⟩ := Expr.last_name h
    exact ⟨x, by simp [tokens, List.getLast?_cons, hx]⟩
  | _ => cases h

theorem Program.last_name {p : Program} {s : Stmt} (hs : s ∈ p.statements.getLast?)
    (h : s.endsInReference = true) : ∃ x, p.tokens.getLast? = some (.name x) := by
  obtain ⟨before, hp⟩ := List.getLast?_eq_some_iff.mp hs
  obtain ⟨x, hx⟩ := s.last_name h
  exact ⟨x, by simp [tokens, Stmt.tokens_of_all, hp, List.getLast?_append, hx]⟩

theorem Program.WellFormed.first_paren {p : Program} (hp : p.WellFormed) {s : Stmt}
    (hs : s ∈ p.statements.head?) (h : s.beginsWithParen = true) :
    p.tokens.head? = some (.mark .openParen) := by
  obtain ⟨after, hafter⟩ := List.head?_eq_some_iff.mp hs
  have hgood : s.WellFormed := hp s (by simp [hafter])
  obtain ⟨e, rest, -, htokens⟩ := hgood.parensNext h (Stmt.tokensOfAll after)
  rw [tokens, hafter, Stmt.tokensOfAll, htokens]
  rfl

theorem Stmt.depthOfEach_append (ss ts : List Stmt) :
    depthOfEach (ss ++ ts) = max (depthOfEach ss) (depthOfEach ts) := by
  induction ss with
  | nil => simp [depthOfEach]
  | cons s ss ih => simp [depthOfEach, ih, Nat.max_assoc]

/-- The statements of a program and then those of another. -/
def Program.followedBy (p q : Program) : Program := ⟨p.pos, p.statements ++ q.statements⟩

namespace Program

variable {p q : Program}

theorem tokens_followedBy (p q : Program) : (p.followedBy q).tokens = p.tokens ++ q.tokens := by
  simp [followedBy, tokens, Stmt.tokens_of_all]

theorem depth_followedBy (p q : Program) : (p.followedBy q).depth = max p.depth q.depth :=
  Stmt.depthOfEach_append _ _

theorem WellFormed.followedBy (hp : p.WellFormed) (hq : q.WellFormed) :
    (p.followedBy q).WellFormed :=
  List.forall_mem_append.mpr ⟨hp, hq⟩

/-- The statements stay parted if the last token of the first program is no name, or the first one
of the second no parenthesis. -/
theorem Apart.followedBy (hp : p.Apart) (hq : q.Apart) (hw : q.WellFormed)
    (hseam : (∀ s, p.tokens.getLast? ≠ some (.name s)) ∨
      q.tokens.head? ≠ some (.mark .openParen)) : (p.followedBy q).Apart := by
  refine ⟨List.isChain_append.mpr ⟨hp.1, hq.1, fun s hs t ht => ?_⟩,
    List.forall_mem_append.mpr ⟨hp.2, hq.2⟩⟩
  rintro ⟨hends, hbegins⟩
  obtain ⟨x, hx⟩ := last_name hs hends
  rcases hseam with hname | hparen
  · exact hname x hx
  · exact hparen (hw.first_paren ht hbegins)

end Program

theorem readProgram_lexed {text : String} {p : Program} (h : readProgram text = .ok p) :
    tokensOf text = p.tokens ∧ Lexed p.tokens (Text.expandTabs text.toList) := by
  obtain ⟨c', hc⟩ := readProgram_ok h
  obtain ⟨htokens, hstray, -⟩ := program_sound maxDepth hc
  exact ⟨htokens, lexed_iff.mpr ⟨htokens, hstray⟩⟩

/-- Two texts that are programs, with a newline between them, are the statements of the first and
then those of the second, up to places, unless these are nested too deep. No name is to come to
stand before a parenthesis, nor the newline into a comment. -/
theorem readProgram_joined {a b : String} {p q : Program} (ha : readProgram a = .ok p)
    (hb : readProgram b = .ok q)
    (hseam : (∀ s, (tokensOf a).getLast? ≠ some (.name s)) ∨
      (tokensOf b).head? ≠ some (.mark .openParen))
    (hcomment : ¬ EndsInOpenComment a.toList) :
    (∃ r, readProgram (a ++ "\n" ++ b) = .ok r ∧ r.bare = (p.followedBy q).bare) ∨
      (maxDepth < max p.depth q.depth ∧ readProgram (a ++ "\n" ++ b) = .error .tooDeep) := by
  obtain ⟨hp, hplexed⟩ := readProgram_lexed ha
  obtain ⟨hq, hqlexed⟩ := readProgram_lexed hb
  rw [hp, hq] at hseam
  have hqw := readProgram_wellFormed hb
  have hw := (readProgram_wellFormed ha).followedBy hqw
  have hapart := (readProgram_apart ha).followedBy (readProgram_apart hb) hqw hseam
  have hlexed := lexed_joined hplexed hqlexed hcomment
  rw [← Program.tokens_followedBy] at hlexed
  obtain ⟨htokens, hstray⟩ := lexed_iff.mp hlexed
  rw [← Program.depth_followedBy]
  exact readProgram_of_tokens hw hapart htokens hstray

end Bronti.Syntax
