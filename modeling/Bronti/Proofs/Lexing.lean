import Bronti.Proofs.Layout
import Bronti.Proofs.Rendering

/-!
Lexing: a text whose lexemes reach its end is laid out from their tokens, and a text that writes
tokens with a spacing between every two of them has just these tokens.
-/
namespace Bronti.Syntax

open Text (Position)

/-- The text of a name or a literal is one that programs may use. -/
def Token.Proper : Token → Prop
  | .name s => IsName s
  | .literal s => IsLiteral s
  | _ => True

/-- No character of a text is blank. -/
def Solid (cs : List Char) : Prop := ∀ c ∈ cs, ¬ Text.isBlank c

/-- What may follow a token that the gap behind it sets apart. -/
def Clear (cs : List Char) : Prop := ∀ c ∈ cs.head?, Text.isBlank c

theorem solid_of_all {cs : List Char} (h : cs.all (fun c => !Text.isBlank c) = true) :
    Solid cs := by
  intro c hc
  simpa using List.all_eq_true.mp h c hc

theorem Solid.ne_space {cs : List Char} (h : Solid cs) : ∀ c ∈ cs, c ≠ ' ' := by
  rintro c hc rfl
  exact h _ hc (by decide)

theorem Solid.ne_tab {cs : List Char} (h : Solid cs) : ∀ c ∈ cs, c ≠ '\t' := by
  rintro c hc rfl
  exact h _ hc (by decide)

theorem blank_cases {c : Char} (h : Text.isBlank c) : c = ' ' ∨ c = '\n' ∨ c = '\r' ∨ c = '\t' := by
  simpa [Text.isBlank, or_assoc] using h

theorem not_blank_of_name_char {c : Char} (h : Text.isNameChar c) : ¬ Text.isBlank c := by
  intro hb
  rcases blank_cases hb with rfl | rfl | rfl | rfl <;> revert h <;> decide

theorem not_blank_of_digit {c : Char} (h : Text.isDigit c) : ¬ Text.isBlank c :=
  not_blank_of_name_char (by simp [Text.isNameChar, h])

theorem not_name_start_of_digit {c : Char} (h : Text.isDigit c) : Text.isNameStart c = false := by
  have hd : 48 ≤ c.toNat ∧ c.toNat ≤ 57 := by
    simpa [Text.isDigit, Char.le_def, UInt32.le_iff_toNat_le] using h
  have hu : c ≠ '_' := by
    rintro rfl
    revert h
    decide
  have hl : (97 ≤ c.toNat → 122 < c.toNat) ∧ (65 ≤ c.toNat → 90 < c.toNat) := by omega
  simpa [Text.isNameStart, Text.isLetter, Char.le_def, UInt32.le_iff_toNat_le, hu] using hl

namespace Keyword

theorem name_chars (k : Keyword) : ∀ c ∈ k.spelling.toList, Text.isNameChar c := by
  apply List.all_eq_true.mp
  cases k <;> decide

theorem name_start (k : Keyword) : ∃ c cs, k.spelling.toList = c :: cs ∧ Text.isNameStart c := by
  cases k <;> exact ⟨_, _, rfl, by decide⟩

theorem of_spelling_iff {s : String} {k : Keyword} : ofSpelling? s = some k ↔ k.spelling = s := by
  constructor
  · intro h
    simpa using List.find?_some h
  · rintro rfl
    cases k <;> decide +kernel

theorem of_spelling_none {s : String} : ofSpelling? s = none ↔ ∀ k : Keyword, k.spelling ≠ s := by
  constructor
  · intro h k hk
    rw [of_spelling_iff.mpr hk] at h
    cases h
  · intro h
    cases hs : ofSpelling? s with
    | none => rfl
    | some k => exact absurd (of_spelling_iff.mp hs) (h k)

end Keyword

namespace Token

theorem spelling_solid {t : Token} (h : t.Proper) : Solid t.spelling.toList := by
  cases t with
  | keyword k => exact fun c hc => not_blank_of_name_char (k.name_chars c hc)
  | name s => exact fun c hc => not_blank_of_name_char (h.chars c hc)
  | literal s => exact fun c hc => not_blank_of_digit (h.digits c hc)
  | mark m =>
    apply solid_of_all
    cases m <;> decide
  | operator o =>
    apply solid_of_all
    cases o <;> decide

/-! ## What is read was written -/

/-- A token that was read stands at the front of the text. It is a proper one, unless a `$` made a
name of a keyword. -/
structure Reads (cs : List Char) (t : Token) (after : List Char) : Prop where
  text : cs = t.spelling.toList ++ after
  solid : Solid t.spelling.toList
  proper : t.Proper ∨ after.head? = some '$' ∧ ∃ k : Keyword, t = .name k.spelling

theorem reads_word {cs : List Char} {c : Char} {ds : List Char} (hc : cs = c :: ds)
    (hs : Text.isNameStart c) :
    Reads cs (ofWord (String.ofList (cs.takeWhile Text.isNameChar)) (cs.dropWhile Text.isNameChar))
      (cs.dropWhile Text.isNameChar) := by
  set word := String.ofList (cs.takeWhile Text.isNameChar) with hw
  set after := cs.dropWhile Text.isNameChar
  have hl : word.toList = cs.takeWhile Text.isNameChar := by simp [hw]
  have hn : ∀ d ∈ word.toList, Text.isNameChar d := by
    intro d hd
    rw [hl] at hd
    exact List.all_eq_true.mp List.all_takeWhile d hd
  have ht : cs = word.toList ++ after := by
    rw [hl]
    exact List.takeWhile_append_dropWhile.symm
  have hword : Solid word.toList := fun d hd => not_blank_of_name_char (hn d hd)
  unfold ofWord
  cases hk : Keyword.ofSpelling? word with
  | none =>
    refine ⟨ht, hword, .inl ⟨⟨c, ds.takeWhile Text.isNameChar, ?_, hs⟩, hn, ?_⟩⟩
    · rw [hl, hc, List.takeWhile_cons_of_pos (Text.isNameChar_of_isNameStart hs)]
    · exact Keyword.of_spelling_none.mp hk
  | some k =>
    dsimp only
    split
    · next hd =>
      exact ⟨ht, hword, .inr ⟨hd, k, congrArg name (Keyword.of_spelling_iff.mp hk).symm⟩⟩
    · rw [← Keyword.of_spelling_iff.mp hk] at ht hword
      exact ⟨ht, hword, .inl trivial⟩

theorem reads_literal {ds after : List Char} (hn : ds ≠ []) (hd : ∀ d ∈ ds, Text.isDigit d) :
    Reads (ds ++ after) (literal (String.ofList ds)) after := by
  have hl : IsLiteral (String.ofList ds) := ⟨by simpa using hn, by simpa using hd⟩
  exact ⟨by simp [spelling], spelling_solid (t := literal (String.ofList ds)) hl, .inl hl⟩

theorem reads_digits {cs : List Char} {c : Char} {ds : List Char} (hc : cs = c :: ds)
    (hd : Text.isDigit c) {t : Token} {after : List Char}
    (h : ofDigits? (cs.takeWhile Text.isDigit) (cs.dropWhile Text.isDigit) = some (t, after)) :
    Reads cs t after := by
  have ht : cs = cs.takeWhile Text.isDigit ++ cs.dropWhile Text.isDigit :=
    List.takeWhile_append_dropWhile.symm
  have hall := List.all_eq_true.mp (List.all_takeWhile (p := Text.isDigit) (l := cs))
  have hne : cs.takeWhile Text.isDigit ≠ [] := by
    rw [hc, List.takeWhile_cons_of_pos hd]
    simp
  generalize cs.takeWhile Text.isDigit = digits at *
  generalize cs.dropWhile Text.isDigit = more at *
  subst ht
  unfold ofDigits? at h
  split at h
  · split at h
    · split at h
      · next d hl =>
        split at h
        · cases h
        · next hlen =>
          cases h
          obtain ⟨front, rfl⟩ := List.getLast?_eq_some_iff.mp hl
          rw [List.dropLast_concat, List.append_assoc]
          refine reads_literal ?_ (fun e he => hall e (by simp [he]))
          rintro rfl
          simp at hlen
      · cases h
    · cases h
      exact reads_literal hne hall
  · cases h
    exact reads_literal hne hall

theorem reads_symbols {cs : List Char} {t : Token} {after : List Char}
    (h : ofSymbols? cs = some (t, after)) : Reads cs t after := by
  unfold ofSymbols? at h
  split at h <;> cases h <;> exact ⟨rfl, spelling_solid trivial, .inl trivial⟩

theorem reads_of_read {cs : List Char} {t : Token} {after : List Char}
    (h : read? cs = some (t, after)) : Reads cs t after := by
  unfold read? at h
  split at h
  · cases h
  · next c ds =>
    split at h
    · next hs =>
      obtain ⟨rfl, rfl⟩ := Prod.mk.inj (Option.some.inj h)
      exact reads_word rfl hs
    · split at h
      · next hd => exact reads_digits rfl hd h
      · exact reads_symbols h

/-! ## What is written is read -/

/-- A run of characters that are no blanks ends where a blank or the end of the text follows. -/
theorem run_of_clear {p : Char → Bool} (hp : ∀ c, p c → ¬ Text.isBlank c) {cs ds : List Char}
    (hc : ∀ c ∈ cs, p c) (hd : Clear ds) :
    (cs ++ ds).takeWhile p = cs ∧ (cs ++ ds).dropWhile p = ds := by
  rw [List.takeWhile_append_of_pos hc, List.dropWhile_append_of_pos hc]
  cases ds with
  | nil => simp
  | cons d ds =>
    have hn : p d = false := by
      by_contra hb
      exact hp d (by simpa using hb) (hd d rfl)
    simp [hn]

theorem read_word {s : String} (hs : ∃ c cs, s.toList = c :: cs ∧ Text.isNameStart c)
    (hn : ∀ c ∈ s.toList, Text.isNameChar c) {ds : List Char} (hd : Clear ds) :
    read? (s.toList ++ ds) = some (ofWord s ds, ds) := by
  obtain ⟨htake, hdrop⟩ := run_of_clear (fun _ => not_blank_of_name_char) hn hd
  obtain ⟨c, cs, hc, hstart⟩ := hs
  unfold read?
  rw [htake, hdrop, String.ofList_toList, hc]
  simp only [List.cons_append, hstart, ↓reduceIte]

theorem read_literal {s : String} (hs : IsLiteral s) {ds : List Char} (hd : Clear ds) :
    read? (s.toList ++ ds) = some (literal s, ds) := by
  obtain ⟨htake, hdrop⟩ := run_of_clear (fun _ => not_blank_of_digit) hs.digits hd
  obtain ⟨c, cs, hc⟩ := List.exists_cons_of_ne_nil hs.nonempty
  have hdigit : Text.isDigit c := hs.digits c (by simp [hc])
  have hend : ofDigits? s.toList ds = some (literal s, ds) := by
    cases ds with
    | nil => simp [ofDigits?]
    | cons d ds =>
      have hn : Text.isNameStart d = false := by
        by_contra hb
        exact not_blank_of_name_char (Text.isNameChar_of_isNameStart (by simpa using hb)) (hd d rfl)
      simp [ofDigits?, hn]
  unfold read?
  rw [htake, hdrop, hend, hc]
  simp only [List.cons_append, not_name_start_of_digit hdigit, hdigit, Bool.false_eq_true,
    ↓reduceIte]

/-- A proper token is read from a text that begins with it, up to a blank or the end. -/
theorem read_spelling {t : Token} (h : t.Proper) {ds : List Char} (hd : Clear ds) :
    read? (t.spelling.toList ++ ds) = some (t, ds) := by
  cases t with
  | keyword k =>
    have hk : Keyword.ofSpelling? k.spelling = some k := Keyword.of_spelling_iff.mpr rfl
    have hn : ds.head? ≠ some '$' := by
      intro hs
      exact absurd (hd '$' hs) (by decide)
    rw [spelling, read_word k.name_start k.name_chars hd]
    simp [ofWord, hk, hn]
  | name s =>
    rw [spelling, read_word h.start h.chars hd]
    simp [ofWord, Keyword.of_spelling_none.mpr h.free]
  | literal s => exact read_literal h hd
  | mark m =>
    cases ds with
    | nil => cases m <;> rfl
    | cons d ds => rcases blank_cases (hd d rfl) with rfl | rfl | rfl | rfl <;> cases m <;> rfl
  | operator o =>
    cases ds with
    | nil => cases o <;> rfl
    | cons d ds => rcases blank_cases (hd d rfl) with rfl | rfl | rfl | rfl <;> cases o <;> rfl

/-- The first character of a token; a slash is a token by itself. -/
theorem spelling_head {t : Token} (h : t.Proper) :
    ∃ c cs, t.spelling.toList = c :: cs ∧ (c = '/' → cs = []) := by
  have hword : ∀ c, Text.isNameChar c → c ≠ '/' := by
    rintro c hc rfl
    revert hc
    decide
  cases t with
  | keyword k =>
    obtain ⟨c, cs, hc, hs⟩ := k.name_start
    exact ⟨c, cs, hc, fun he => absurd he (hword c (Text.isNameChar_of_isNameStart hs))⟩
  | name s =>
    obtain ⟨c, cs, hc, hs⟩ := h.start
    exact ⟨c, cs, hc, fun he => absurd he (hword c (Text.isNameChar_of_isNameStart hs))⟩
  | literal s =>
    obtain ⟨c, cs, hc⟩ := List.exists_cons_of_ne_nil h.nonempty
    have hd : Text.isDigit c := h.digits c (by simp [hc])
    exact ⟨c, cs, hc, fun he => absurd he (hword c (by simp [Text.isNameChar, hd]))⟩
  | mark m => cases m <;> exact ⟨_, _, rfl, by decide⟩
  | operator o => cases o <;> exact ⟨_, _, rfl, by decide⟩

/-- A gap stops at a token. -/
theorem scan_gap_spelling {t : Token} (h : t.Proper) {ds : List Char} (hd : Clear ds)
    (origin before p : Position) :
    (scanGap origin before p (t.spelling.toList ++ ds)).2 = t.spelling.toList ++ ds := by
  obtain ⟨c, cs, hc, hslash⟩ := spelling_head h
  have hb : ¬ Text.isBlank c := spelling_solid h c (by simp [hc])
  rw [hc, List.cons_append]
  apply scan_gap_stop _ _ _ hb
  intro es he hs
  rw [hslash he, List.nil_append] at hs
  exact absurd (hd '/' (by simp [hs])) (by decide)

end Token

/-! ## Lexemes -/

def Lexemes.tokens (ls : Lexemes) : List Token := ls.all.map Lexeme.token

theorem lexemes_stop (limit : Nat) {p : Position} {cs : List Char}
    (h : Token.read? (scanGap p p p cs).2 = none) :
    (lexemesFrom (limit + 1) p cs).tokens = [] ∧
      (lexemesFrom (limit + 1) p cs).unread = (scanGap p p p cs).2 := by
  rw [lexemesFrom]
  simp [Lexemes.tokens, h]

theorem lexemes_token (limit : Nat) {p : Position} {cs : List Char} {t : Token}
    {after : List Char} (h : Token.read? (scanGap p p p cs).2 = some (t, after)) :
    ∃ q, (lexemesFrom (limit + 1) p cs).tokens = t :: (lexemesFrom limit q after).tokens ∧
      (lexemesFrom (limit + 1) p cs).unread = (lexemesFrom limit q after).unread := by
  rw [lexemesFrom]
  simp only [h]
  exact ⟨_, rfl, rfl⟩

/-- Nothing is read from a `$` on. -/
theorem unread_of_dollar (limit : Nat) (p : Position) {cs : List Char} (h : cs.head? = some '$') :
    (lexemesFrom limit p cs).unread ≠ [] := by
  obtain ⟨ds, rfl⟩ := List.head?_eq_some_iff.mp h
  cases limit with
  | zero => simp [lexemesFrom]
  | succ limit =>
    have hg : (scanGap p p p ('$' :: ds)).2 = '$' :: ds := scan_gap_stop p p p (by decide) (by simp)
    have hr : Token.read? (scanGap p p p ('$' :: ds)).2 = none := by
      rw [hg]
      rfl
    rw [(lexemes_stop limit hr).2, hg]
    simp

/-- Where lexing reaches the end of a text, it has read a layout of the text, also if it was given
the text with its tabs expanded. -/
theorem lexemes_layout (limit : Nat) (p : Position) {cs ds : List Char} (he : Expansion cs ds)
    (hu : (lexemesFrom limit p ds).unread = []) :
    Layout (lexemesFrom limit p ds).tokens cs ∧
      ∀ t ∈ (lexemesFrom limit p ds).tokens, t.Proper := by
  induction limit generalizing p cs ds with
  | zero =>
    have hd : ds = [] := hu
    subst hd
    rw [he.eq_nil]
    exact ⟨.done (.closed .nil), by simp [lexemesFrom, Lexemes.tokens]⟩
  | succ limit ih =>
    obtain ⟨sep, hsep, hpass⟩ := scan_gap_passes p p p cs
    have hrest := scan_gap_expansion p p p p p p he
    generalize (scanGap p p p cs).2 = rest at hsep hpass hrest
    cases hr : Token.read? (scanGap p p p ds).2 with
    | none =>
      obtain ⟨hnone, hun⟩ := lexemes_stop limit hr
      rw [← hun, hu] at hrest
      rw [hsep, hrest.eq_nil, List.append_nil, hnone]
      exact ⟨.done hpass.trailer, by simp⟩
    | some r =>
      obtain ⟨t, after⟩ := r
      obtain ⟨q, htokens, hun⟩ := lexemes_token limit hr
      have hread := Token.reads_of_read hr
      rw [hread.text] at hrest
      obtain ⟨bs, rfl, hb⟩ := hrest.of_append_ne hread.solid.ne_space
      obtain ⟨hlay, hproper⟩ := ih q hb (hun ▸ hu)
      have ht : t.Proper := by
        rcases hread.proper with ht | ⟨hd, -⟩
        · exact ht
        · exact absurd (hun ▸ hu) (unread_of_dollar limit q hd)
      have hne : t.spelling.toList ++ bs ≠ [] := by
        obtain ⟨c, es, hc, _⟩ := Token.spelling_head ht
        simp [hc]
      rw [htokens, hsep]
      refine ⟨.token (hpass.separator hne) hlay, ?_⟩
      intro u hm
      rcases List.mem_cons.mp hm with rfl | hm
      · exact ht
      · exact hproper u hm

theorem Spacing.clear {sep : List Char} (h : Spacing sep) (more : List Char) :
    Clear (sep ++ more) := by
  intro c hc
  obtain ⟨b, bs, rfl, hb⟩ := h.blank
  simp only [List.cons_append, List.head?_cons, Option.mem_some_iff] at hc
  exact hc ▸ hb

theorem Spread.clear {ts : List Token} {cs : List Char} (h : Spread ts cs) : Clear cs := by
  cases h with
  | done h =>
    rcases h with rfl | h
    · exact fun c hc => absurd hc (by simp)
    · simpa using h.clear []
  | token h _ => exact h.clear _

theorem Expansion.clear {cs ds : List Char} (h : Expansion cs ds) (hc : Clear cs) : Clear ds := by
  intro c hd
  cases h with
  | nil => simp at hd
  | char _ _ => exact hc c (by simpa using hd)
  | tab n _ =>
    rw [List.replicate_succ, List.cons_append] at hd
    simp only [List.head?_cons, Option.mem_some_iff] at hd
    subst hd
    decide

/-- A separator by itself leaves no lexeme. -/
theorem lexemes_of_separator {limit : Nat} {p : Position} {sep ds : List Char}
    (hs : Separator sep) (he : Expansion sep ds) :
    (lexemesFrom (limit + 1) p ds).tokens = [] ∧ (lexemesFrom (limit + 1) p ds).unread = [] := by
  have hgap : (scanGap p p p sep).2 = [] := by
    have := scan_gap_separator p hs [] (by simp [scanGap]) p p
    simpa using this
  have hrest := scan_gap_expansion p p p p p p he
  rw [hgap] at hrest
  have hnil : (scanGap p p p ds).2 = [] := by
    generalize (scanGap p p p ds).2 = rest at hrest
    cases hrest
    rfl
  have hr : Token.read? (scanGap p p p ds).2 = none := by
    rw [hnil]
    rfl
  exact ⟨(lexemes_stop limit hr).1, (lexemes_stop limit hr).2.trans hnil⟩

/-- A separator and a token behind it are read as this token. -/
theorem lexemes_of_token (limit : Nat) (p : Position) {sep cs ds : List Char} {t : Token}
    (hs : Separator sep) (ht : t.Proper) (hc : Clear cs)
    (he : Expansion (sep ++ (t.spelling.toList ++ cs)) ds) :
    ∃ q after, Expansion cs after ∧
      (lexemesFrom (limit + 1) p ds).tokens = t :: (lexemesFrom limit q after).tokens ∧
      (lexemesFrom (limit + 1) p ds).unread = (lexemesFrom limit q after).unread := by
  have hgap := scan_gap_separator p hs (t.spelling.toList ++ cs)
    (fun before q => Token.scan_gap_spelling ht hc p before q) p p
  have hrest := scan_gap_expansion p p p p p p he
  rw [hgap] at hrest
  obtain ⟨after, hafter, hx⟩ := hrest.append_of_ne (Token.spelling_solid ht).ne_tab
  have hr : Token.read? (scanGap p p p ds).2 = some (t, after) := by
    rw [hafter]
    exact Token.read_spelling ht (hx.clear hc)
  obtain ⟨q, htokens, hun⟩ := lexemes_token limit hr
  exact ⟨q, after, hx, htokens, hun⟩

theorem lexemes_of_spread {ts : List Token} {cs : List Char} (h : Spread ts cs)
    (ht : ∀ t ∈ ts, t.Proper) {limit : Nat} (hl : ts.length < limit) (p : Position)
    {ds : List Char} (he : Expansion cs ds) :
    (lexemesFrom limit p ds).tokens = ts ∧ (lexemesFrom limit p ds).unread = [] := by
  induction h generalizing limit p ds with
  | done h =>
    obtain ⟨limit, rfl⟩ := Nat.exists_eq_succ_of_ne_zero (Nat.ne_of_gt hl)
    exact lexemes_of_separator (separator_of_optional h) he
  | @token t ts sep cs h more ih =>
    obtain ⟨limit, rfl⟩ := Nat.exists_eq_succ_of_ne_zero (Nat.ne_of_gt (Nat.zero_lt_of_lt hl))
    obtain ⟨q, after, hx, htokens, hun⟩ :=
      lexemes_of_token limit p h.separator (ht t (by simp)) more.clear he
    obtain ⟨hmore, hend⟩ := ih (fun u hu => ht u (by simp [hu])) (by simpa using hl) q hx
    exact ⟨by rw [htokens, hmore], by rw [hun, hend]⟩

theorem Spread.length_le {ts : List Token} {cs : List Char} (h : Spread ts cs)
    (ht : ∀ t ∈ ts, t.Proper) : ts.length ≤ cs.length := by
  induction h with
  | done _ => exact Nat.zero_le _
  | @token t _ _ _ _ _ ih =>
    obtain ⟨c, es, hc, _⟩ := Token.spelling_head (ht t (by simp))
    have hmore := ih (fun u hu => ht u (by simp [hu]))
    simp only [hc, List.length_append, List.length_cons]
    omega

/-- The tokens of a text that writes them, whichever way its tabs are expanded. -/
theorem lexemes_of_written {ts : List Token} {cs ds : List Char} (h : Written ts cs)
    (ht : ∀ t ∈ ts, t.Proper) (he : Expansion cs ds) :
    (Lexemes.ofText ds).tokens = ts ∧ (Lexemes.ofText ds).unread = [] := by
  unfold Lexemes.ofText
  cases h with
  | empty h => exact lexemes_of_separator (separator_of_optional h) he
  | @begun t ts sep cs h more =>
    obtain ⟨q, after, hx, htokens, hun⟩ := lexemes_of_token ds.length .start
      (separator_of_optional h) (ht t (by simp)) more.clear he
    have hmore : ∀ u ∈ ts, u.Proper := fun u hu => ht u (by simp [hu])
    have hl : ts.length < ds.length := by
      obtain ⟨c, es, hc, _⟩ := Token.spelling_head (ht t (by simp))
      have hshort := more.length_le hmore
      have hlong := he.length_le
      simp only [hc, List.length_append, List.length_cons] at hlong
      omega
    obtain ⟨hall, hend⟩ := lexemes_of_spread more hmore hl q hx
    exact ⟨by rw [htokens, hall], by rw [hun, hend]⟩

end Bronti.Syntax
