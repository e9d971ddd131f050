import Bronti.Proofs.Joining

/-!
Places in a text. Where a reader stands, the text is what was passed over and what is left, and a
position counts the characters and the lines of what was passed over.
-/
namespace Bronti.Text.Position

/-- Every newline begins a line, and nothing else does. -/
theorem line_advance (p : Position) (cs : List Char) :
    (p.advance cs).line = p.line + cs.count '\n' := by
  induction cs generalizing p with
  | nil => rfl
  | cons c cs ih =>
    rw [advance_cons, ih, List.count_cons]
    unfold next
    by_cases hc : c = '\n'
    · simp only [hc, if_true, beq_self_eq_true]
      omega
    · simp [hc]

@[simp] theorem offset_start_advance (cs : List Char) : (start.advance cs).offset = cs.length := by
  rw [offset_advance]
  exact Nat.zero_add _

end Bronti.Text.Position

namespace Bronti.Syntax

open Text (Position)

/-! ## Gaps -/

/-- All characters are blanks. -/
def Blank (cs : List Char) : Prop := ∀ c ∈ cs, Text.isBlank c

/-- The places of a gap: the comments of the gap are passed over, then blanks only. -/
theorem scan_gap_places (p : Position) (cs : List Char) :
    ∃ skipped blanks, cs = skipped ++ (blanks ++ behindGap cs) ∧ Blank blanks ∧
      (scanGap p p p cs).1 = ⟨p, p.advance skipped, p.advance (skipped ++ blanks)⟩ := by
  suffices h : ∃ blanks, Blank blanks ∧
      ((cs = blanks ++ behindGap cs ∧ (scanGap p p p cs).1 = ⟨p, p, p.advance blanks⟩) ∨
        ∃ skipped, cs = skipped ++ (blanks ++ behindGap cs) ∧
          (scanGap p p p cs).1 = ⟨p, p.advance skipped, p.advance (skipped ++ blanks)⟩) by
    obtain ⟨blanks, hb, ⟨hcs, hg⟩ | ⟨skipped, hcs, hg⟩⟩ := h
    · exact ⟨[], blanks, hcs, hb, hg⟩
    · exact ⟨skipped, blanks, hcs, hb, hg⟩
  -- inside the gap, `before` is still where the last comment ended, if there was one
  rw [← scan_gap_behind p p p cs]
  refine scanGap.induct
    (fun before q cs => ∃ blanks, Blank blanks ∧
      ((cs = blanks ++ (scanGap p before q cs).2 ∧
          (scanGap p before q cs).1 = ⟨p, before, q.advance blanks⟩) ∨
        ∃ skipped, cs = skipped ++ (blanks ++ (scanGap p before q cs).2) ∧
          (scanGap p before q cs).1 = ⟨p, q.advance skipped, q.advance (skipped ++ blanks)⟩))
    (fun q cs => ∃ skipped blanks, Blank blanks ∧
      cs = skipped ++ (blanks ++ (scanComment p q cs).2) ∧
        (scanComment p q cs).1 = ⟨p, q.advance skipped, q.advance (skipped ++ blanks)⟩)
    ?nil ?slashes ?blank ?stop ?ended ?continued ?newline ?char p p cs
  case nil => exact fun _ _ => ⟨[], by simp [Blank], .inl ⟨rfl, rfl⟩⟩
  case slashes =>
    intro before q cs h
    obtain ⟨skipped, blanks, hb, hcs, hg⟩ := h
    rw [scanGap.eq_2]
    exact ⟨blanks, hb, .inr ⟨'/' :: '/' :: skipped, by simpa using hcs, by simpa using hg⟩⟩
  case blank =>
    intro before q c cs _ hc h
    obtain ⟨blanks, hb, h⟩ := h
    rw [scan_gap_blank _ _ _ hc]
    rcases h with ⟨hcs, hg⟩ | ⟨skipped, hcs, hg⟩
    · refine ⟨c :: blanks, ?_, .inl ⟨by simpa using hcs, by simpa using hg⟩⟩
      exact List.forall_mem_cons.mpr ⟨hc, hb⟩
    · exact ⟨blanks, hb, .inr ⟨c :: skipped, by simpa using hcs, by simpa using hg⟩⟩
  case stop =>
    intro before q c cs hs hc
    have hstop : scanGap p before q (c :: cs) = (⟨p, before, q⟩, c :: cs) := by
      rw [scanGap.eq_3 _ _ _ _ _ hs, if_neg hc]
    rw [hstop]
    exact ⟨[], by simp [Blank], .inl ⟨rfl, rfl⟩⟩
  case ended => exact fun _ => ⟨[], [], by simp [Blank], rfl, rfl⟩
  case continued =>
    intro q cs h
    obtain ⟨skipped, blanks, hb, hcs, hg⟩ := h
    rw [scanComment.eq_2]
    exact ⟨'\\' :: '\n' :: skipped, blanks, hb, by simpa using hcs, by simpa using hg⟩
  case newline =>
    intro q cs h
    obtain ⟨blanks, hb, h⟩ := h
    rw [scanComment.eq_3]
    rcases h with ⟨hcs, hg⟩ | ⟨skipped, hcs, hg⟩
    -- the newline that ends a comment is the first of the blanks behind it
    · refine ⟨[], '\n' :: blanks, ?_, by simpa using hcs, by simpa using hg⟩
      exact List.forall_mem_cons.mpr ⟨by decide, hb⟩
    · exact ⟨'\n' :: skipped, blanks, hb, by simpa using hcs, by simpa using hg⟩
  case char =>
    intro q c cs hb hn h
    obtain ⟨skipped, blanks, hblank, hcs, hg⟩ := h
    rw [scanComment.eq_4 _ _ _ _ hb hn]
    exact ⟨c :: skipped, blanks, hblank, by simpa using hcs, by simpa using hg⟩

/-- A gap ends neither before a blank nor before a comment. -/
theorem behindGap_head (cs : List Char) : ∀ c rest, behindGap cs = c :: rest →
    ¬ Text.isBlank c ∧ (c = '/' → rest.head? ≠ some '/') := by
  refine scanGap.induct
    (fun before p cs => ∀ c rest, (scanGap .start before p cs).2 = c :: rest →
      ¬ Text.isBlank c ∧ (c = '/' → rest.head? ≠ some '/'))
    (fun p cs => ∀ c rest, (scanComment .start p cs).2 = c :: rest →
      ¬ Text.isBlank c ∧ (c = '/' → rest.head? ≠ some '/'))
    ?nil ?slashes ?blank ?stop ?ended ?continued ?newline ?char .start .start cs
  case nil =>
    intro _ _ _ _ h
    cases h
  case slashes =>
    intro _ _ cs ih c rest h
    rw [scanGap.eq_2] at h
    exact ih _ _ h
  case blank =>
    intro _ _ c cs _ hc ih d rest h
    rw [scan_gap_blank _ _ _ hc] at h
    exact ih _ _ h
  case stop =>
    intro _ _ c cs hs hc d rest h
    rw [scan_gap_stop _ _ _ hc hs] at h
    obtain ⟨rfl, rfl⟩ := List.cons.inj h
    refine ⟨hc, fun hslash hhead => ?_⟩
    obtain ⟨ds, hds⟩ := List.head?_eq_some_iff.mp hhead
    exact hs ds hslash hds
  case ended =>
    intro _ _ _ h
    cases h
  case continued =>
    intro _ cs ih c rest h
    rw [scanComment.eq_2] at h
    exact ih _ _ h
  case newline =>
    intro _ cs ih c rest h
    rw [scanComment.eq_3] at h
    exact ih _ _ h
  case char =>
    intro _ c cs hb hn ih d rest h
    rw [scanComment.eq_4 _ _ _ _ hb hn] at h
    exact ih _ _ h

/-! ## Beginnings of texts -/

/-- Up to `after`, the text is these tokens, with gaps before each of them. -/
inductive LexedTo : List Token → List Char → List Char → Prop
  | nil {cs : List Char} : LexedTo [] cs cs
  | token {t : Token} {ts : List Token} {cs mid after : List Char}
      (h : Token.read? (behindGap cs) = some (t, mid)) (more : LexedTo ts mid after) :
      LexedTo (t :: ts) cs after

namespace LexedTo

variable {ts us : List Token} {cs mid after : List Char}

theorem append (h : LexedTo ts cs mid) (h' : LexedTo us mid after) :
    LexedTo (ts ++ us) cs after := by
  induction h with
  | nil => exact h'
  | token hread _ ih => exact .token hread (ih h')

/-- What tokens lead to is determined by them. -/
theorem unique {after' : List Char} (h : LexedTo ts cs after) (h' : LexedTo ts cs after') :
    after = after' := by
  induction h with
  | nil =>
    cases h'
    rfl
  | token hread _ ih =>
    cases h' with
    | token hread' more' =>
      rw [hread] at hread'
      obtain ⟨-, rfl⟩ := Prod.mk.inj (Option.some.inj hread')
      exact ih more'

theorem split (h : LexedTo (ts ++ us) cs after) :
    ∃ mid, LexedTo ts cs mid ∧ LexedTo us mid after := by
  induction ts generalizing cs with
  | nil => exact ⟨cs, .nil, h⟩
  | cons t ts ih =>
    cases h with
    | token hread more =>
      obtain ⟨mid, hfirst, hlast⟩ := ih more
      exact ⟨mid, .token hread hfirst, hlast⟩

end LexedTo

theorem Lexed.lexedTo {ts : List Token} {cs : List Char} (h : Lexed ts cs) :
    ∃ after, LexedTo ts cs after ∧ behindGap after = [] := by
  induction h with
  | @done cs h => exact ⟨cs, .nil, h⟩
  | token hread _ ih =>
    obtain ⟨after, hto, hend⟩ := ih
    exact ⟨after, .token hread hto, hend⟩

/-! ## Where a reader stands -/

theorem lexemesFrom_none {limit : Nat} {p : Position} {cs : List Char}
    (h : Token.read? (behindGap cs) = none) :
    lexemesFrom (limit + 1) p cs = ⟨[], (scanGap p p p cs).1, behindGap cs⟩ := by
  rw [lexemesFrom]
  simp only [scan_gap_behind, h]

/-- Behind a token, lexing goes on at the place to which the gap and the token lead. -/
theorem lexemesFrom_some (limit : Nat) (p : Position) {cs after : List Char} {t : Token}
    (h : Token.read? (behindGap cs) = some (t, after)) :
    ∃ passed, cs = passed ++ after ∧ lexemesFrom (limit + 1) p cs =
      { lexemesFrom limit (p.advance passed) after with
        all := ⟨t, (scanGap p p p cs).1⟩ :: (lexemesFrom limit (p.advance passed) after).all } := by
  obtain ⟨skipped, blanks, hcs, -, hgap⟩ := scan_gap_places p cs
  have htext := (Token.reads_of_read h).text
  refine ⟨skipped ++ (blanks ++ t.spelling.toList), ?_, ?_⟩
  · rw [htext] at hcs
    simpa using hcs
  · have htake : (behindGap cs).take ((behindGap cs).length - after.length) =
        t.spelling.toList := by
      simp [htext]
    rw [lexemesFrom]
    simp only [scan_gap_behind, h, htake]
    simp [hgap]

/-- The reader stands behind these tokens of a text: the lexemes before it are those of what is left
of the text. -/
def Cursor.At (c : Cursor) (text : List Char) (ts : List Token) : Prop :=
  ∃ limit front left, text = front ++ left ∧ left.length < limit ∧ LexedTo ts text left ∧
    c.lexemes = (lexemesFrom limit (Position.start.advance front) left).all ∧
    c.final = (lexemesFrom limit (Position.start.advance front) left).gap ∧
    c.stray = !(lexemesFrom limit (Position.start.advance front) left).unread.isEmpty

/-- What a reader has before it: the gap there with its places, and what stands behind the gap. -/
structure Cursor.Facing (c : Cursor) (text : List Char) (ts : List Token)
    (front skipped blanks left : List Char) : Prop where
  whole : text = front ++ left
  next : left = skipped ++ (blanks ++ behindGap left)
  behind : LexedTo ts text left
  blank : Blank blanks
  places : c.gap = ⟨Position.start.advance front, Position.start.advance (front ++ skipped),
    Position.start.advance (front ++ (skipped ++ blanks))⟩
  token : c.token? = (Token.read? (behindGap left)).map Prod.fst
  stray : c.token? = none → c.stray = !(behindGap left).isEmpty

namespace Cursor

variable {c : Cursor} {text : List Char} {ts : List Token} {front skipped blanks left : List Char}

theorem ofText_at (text : List Char) : (ofText text).At text [] :=
  ⟨text.length + 1, [], text, rfl, Nat.lt_succ_self _, .nil, rfl, rfl, rfl⟩

theorem At.readGap (h : c.At text ts) : c.readGap.At text ts := h

theorem At.facing (h : c.At text ts) :
    ∃ front skipped blanks left, c.Facing text ts front skipped blanks left := by
  obtain ⟨limit, front, left, htext, hl, hto, hall, hfinal, hstray⟩ := h
  obtain ⟨limit, rfl⟩ := Nat.exists_eq_succ_of_ne_zero (Nat.ne_of_gt (Nat.zero_lt_of_lt hl))
  obtain ⟨skipped, blanks, hleft, hb, hgap⟩ :=
    scan_gap_places (Position.start.advance front) left
  refine ⟨front, skipped, blanks, left, ?_⟩
  cases hr : Token.read? (behindGap left) with
  | none =>
    rw [lexemesFrom_none hr] at hall hfinal hstray
    refine ⟨htext, hleft, hto, hb, ?_, by simp [token?, hall, hr], fun _ => hstray⟩
    simp [gap, hall, hfinal, hgap]
  | some r =>
    obtain ⟨passed, -, hmore⟩ := lexemesFrom_some limit (Position.start.advance front) hr
    rw [hmore] at hall
    refine ⟨htext, hleft, hto, hb, ?_, by simp [token?, hall, hr], by simp [token?, hall]⟩
    simp [gap, hall, hgap]

theorem At.skip {t : Token} (h : c.At text ts) (ht : c.token? = some t) :
    c.skip.At text (ts ++ [t]) := by
  obtain ⟨limit, front, left, htext, hl, hto, hall, hfinal, hstray⟩ := h
  obtain ⟨limit, rfl⟩ := Nat.exists_eq_succ_of_ne_zero (Nat.ne_of_gt (Nat.zero_lt_of_lt hl))
  cases hr : Token.read? (behindGap left) with
  | none =>
    rw [lexemesFrom_none hr] at hall
    simp [token?, hall] at ht
  | some r =>
    obtain ⟨u, after⟩ := r
    obtain ⟨passed, hpassed, hmore⟩ := lexemesFrom_some limit (Position.start.advance front) hr
    rw [hmore] at hall hfinal hstray
    obtain rfl : u = t := by simpa [token?, hall] using ht
    have hshort := Token.read_shorter hr
    have hgap := (behindGap_suffix left).length_le
    refine ⟨limit, front ++ passed, after, by simp [htext, hpassed], by omega,
      hto.append (.token hr .nil), ?_⟩
    rw [Position.advance_append]
    exact ⟨by simp [hall], hfinal, hstray⟩

namespace Facing

theorem here_eq (h : c.Facing text ts front skipped blanks left) :
    c.here = Position.start.advance
      (front ++ (skipped ++ if c.gapRead then blanks else [])) := by
  unfold here
  rw [h.places]
  cases c.gapRead <;> simp

theorem start_eq (h : c.Facing text ts front skipped blanks left) :
    c.start = Position.start.advance (front ++ (skipped ++ blanks)) := by
  rw [start, h.places]

/-- The offset of the next token. -/
theorem offset_start (h : c.Facing text ts front skipped blanks left) :
    c.start.offset + (behindGap left).length = text.length := by
  rw [h.start_eq, h.whole, Position.offset_start_advance]
  conv_rhs => rw [h.next]
  simp only [List.length_append]
  omega

end Facing

theorem At.here_le_start (h : c.At text ts) : c.here.offset ≤ c.start.offset := by
  obtain ⟨front, skipped, blanks, left, hf⟩ := h.facing
  rw [hf.here_eq, hf.start_eq, Position.offset_start_advance, Position.offset_start_advance]
  cases c.gapRead <;> simp

/-- A reader that reads a token comes to stand behind it. -/
theorem At.start_lt_skip {t : Token} (h : c.At text ts) (ht : c.token? = some t) :
    c.start.offset < c.skip.here.offset := by
  obtain ⟨front, skipped, blanks, left, hf⟩ := h.facing
  obtain ⟨front', skipped', blanks', left', hf'⟩ := (h.skip ht).facing
  obtain ⟨mid, hmid, hlast⟩ := hf'.behind.split
  obtain rfl := hmid.unique hf.behind
  cases hlast with
  | token hread hnil =>
    cases hnil
    have hshort := Token.read_shorter hread
    have hstart := hf.offset_start
    have hwhole := congrArg List.length hf'.whole
    rw [List.length_append] at hwhole
    rw [hf'.here_eq, Position.offset_start_advance, List.length_append]
    omega

end Cursor

end Bronti.Syntax
