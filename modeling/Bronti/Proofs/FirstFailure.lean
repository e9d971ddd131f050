import Bronti.Proofs.Stopping
import Bronti.Proofs.Truncation

/-!
A failed reading of a program points at the first thing that is wrong: what stands before that place
is a program, and no statement begins there.
-/
namespace Bronti.Text

/-! ## Lines, columns and tabs -/

/-- What stands behind the last newline. -/
def lastLine (cs : List Char) : List Char := (cs.reverse.takeWhile (· != '\n')).reverse

theorem not_mem_lastLine (cs : List Char) : '\n' ∉ lastLine cs := by
  intro h
  have hne := List.all_eq_true.mp List.all_takeWhile _ (List.mem_reverse.mp h)
  simp at hne

/-- On what stands behind all newlines, the last line goes back to the beginning. -/
theorem takeWhile_line {ds : List Char} (h : '\n' ∉ ds) (cs : List Char) :
    (ds.reverse ++ cs).takeWhile (· != '\n') = ds.reverse ++ cs.takeWhile (· != '\n') := by
  refine List.takeWhile_append_of_pos fun c hc => ?_
  simpa using fun he : c = '\n' => h (he ▸ List.mem_reverse.mp hc)

theorem lastLine_of_not_mem {cs : List Char} (h : '\n' ∉ cs) : lastLine cs = cs := by
  have hline := takeWhile_line h []
  rw [List.append_nil, List.takeWhile_nil, List.append_nil] at hline
  rw [lastLine, hline, List.reverse_reverse]

theorem lastLine_append (cs : List Char) {ds : List Char} (h : '\n' ∉ ds) :
    lastLine (cs ++ '\n' :: ds) = ds := by
  have hstop : (cs ++ '\n' :: ds).reverse = ds.reverse ++ '\n' :: cs.reverse := by simp
  rw [lastLine, hstop, takeWhile_line h, List.takeWhile_cons_of_neg (by simp), List.append_nil,
    List.reverse_reverse]

/-- A text is its last line, with a newline before it or nothing at all. -/
theorem lastLine_cases (cs : List Char) :
    lastLine cs = cs ∨ ∃ front, cs = front ++ '\n' :: lastLine cs := by
  by_cases h : '\n' ∈ cs
  · obtain ⟨line, front, hcs, hline⟩ := List.eq_append_cons_of_mem (List.mem_reverse.mpr h)
    obtain rfl : cs = front.reverse ++ '\n' :: line.reverse := by
      simpa using congrArg List.reverse hcs
    rw [lastLine_append _ (by simpa using hline)]
    exact .inr ⟨front.reverse, rfl⟩
  · exact .inl (lastLine_of_not_mem h)

/-- The index of the last newline, or -1 where there is none. -/
def lastNewline (cs : List Char) : Int := (cs.length : Int) - 1 - cs.reverse.idxOf '\n'

theorem lastNewline_eq (cs : List Char) :
    lastNewline cs = (cs.length : Int) - 1 - (lastLine cs).length := by
  have hline := not_mem_lastLine cs
  have hidx : cs.reverse.idxOf '\n' = (lastLine cs).length := by
    rcases lastLine_cases cs with hcs | ⟨front, hcs⟩
    · rw [hcs] at hline ⊢
      rw [List.idxOf_eq_length (by simpa using hline), List.length_reverse]
    · conv_lhs => rw [hcs]
      simp [List.idxOf_append, hline]
  rw [lastNewline, hidx]

namespace Position

/-- On a line, columns count the characters. -/
theorem column_advance (p : Position) {cs : List Char} (h : '\n' ∉ cs) :
    (p.advance cs).column = p.column + cs.length := by
  induction cs generalizing p with
  | nil => rfl
  | cons c cs ih =>
    obtain ⟨hc, hcs⟩ := List.ne_and_not_mem_of_not_mem_cons h
    rw [advance_cons, ih _ hcs, next, if_neg (Ne.symm hc), List.length_cons, Nat.add_right_comm,
      Nat.add_assoc]

/-- The column of a place counts the characters behind the last newline before it. -/
theorem column_start_advance (cs : List Char) :
    (start.advance cs).column = 1 + (lastLine cs).length := by
  rcases lastLine_cases cs with hcs | ⟨front, hcs⟩
  · have hline := not_mem_lastLine cs
    rw [hcs] at hline ⊢
    exact column_advance start hline
  · rw [hcs, lastLine_append _ (not_mem_lastLine cs), advance_append, advance_cons,
      column_advance _ (not_mem_lastLine cs)]
    rfl

end Position

theorem not_mem_expandTabsFrom (column : Nat) (cs : List Char) :
    '\t' ∉ expandTabsFrom column cs := by
  fun_induction expandTabsFrom column cs with
  | case1 => simp
  | case2 column cs ih => simpa using ih
  | case3 column c cs hc ih => simpa [ih] using Ne.symm hc

theorem expandTabsFrom_of_not_mem (column : Nat) {cs : List Char} (h : '\t' ∉ cs) :
    expandTabsFrom column cs = cs := by
  fun_induction expandTabsFrom column cs with
  | case1 => rfl
  | case2 column cs ih => simp at h
  | case3 column c cs hc ih => rw [ih (List.not_mem_of_not_mem_cons h)]

end Bronti.Text

namespace Bronti.Syntax

open Text (Position)
open Parse

/-! ## What a reader has before it -/

/-- Only what stands behind the gap at the front of a text decides its tokens. -/
theorem lexemesFrom_congr {l l' : Nat} (p q : Position) {cs ds : List Char} (hl : cs.length < l)
    (hl' : ds.length < l') (h : behindGap cs = behindGap ds) :
    (lexemesFrom l p cs).tokens = (lexemesFrom l' q ds).tokens := by
  induction l generalizing l' p q cs ds with
  | zero => exact absurd hl (Nat.not_lt_zero _)
  | succ l ih =>
    obtain ⟨l', rfl⟩ := Nat.exists_eq_succ_of_ne_zero (Nat.ne_of_gt (Nat.zero_lt_of_lt hl'))
    cases hr : Token.read? (behindGap cs) with
    | none =>
      rw [lexemesFrom_none hr, lexemesFrom_none (h ▸ hr)]
      rfl
    | some r =>
      obtain ⟨t, after⟩ := r
      obtain ⟨passed, hcs, hmore⟩ := lexemesFrom_some l p hr
      obtain ⟨passed', hds, hmore'⟩ := lexemesFrom_some l' q (h ▸ hr)
      have hshort := Token.read_shorter hr
      have hgap := (behindGap_suffix cs).length_le
      have hgap' := (behindGap_suffix ds).length_le
      rw [← h] at hgap'
      have hrest : (lexemesFrom l (p.advance passed) after).tokens =
          (lexemesFrom l' (q.advance passed') after).tokens := ih _ _ (by omega) (by omega) rfl
      simpa [hmore, hmore', Lexemes.tokens] using hrest

theorem lexemesFrom_lexedTo (l : Nat) (p : Position) (cs : List Char) :
    ∃ after, LexedTo (lexemesFrom l p cs).tokens cs after := by
  induction l generalizing p cs with
  | zero => exact ⟨cs, .nil⟩
  | succ l ih =>
    cases hr : Token.read? (behindGap cs) with
    | none =>
      rw [lexemesFrom_none hr]
      exact ⟨cs, .nil⟩
    | some r =>
      obtain ⟨t, mid⟩ := r
      obtain ⟨passed, -, hmore⟩ := lexemesFrom_some l p hr
      obtain ⟨after, hafter⟩ := ih (p.advance passed) mid
      refine ⟨after, ?_⟩
      rw [hmore]
      exact .token hr hafter

namespace Cursor

variable {c : Cursor} {text left : List Char} {ts : List Token}

/-- Behind the tokens that were read come those that were not. -/
theorem At.lexedTo (h : c.At text ts) : ∃ after, LexedTo (ts ++ c.tokens) text after := by
  obtain ⟨l, front, left, -, -, hto, hall, -⟩ := h
  obtain ⟨after, hafter⟩ := lexemesFrom_lexedTo l (Position.start.advance front) left
  refine ⟨after, hto.append ?_⟩
  rw [Cursor.tokens, hall]
  exact hafter

/-- A reader has before it what one at the front of the rest of the text has. -/
theorem At.tokens_eq (h : c.At text ts) (hleft : LexedTo ts text left) :
    c.tokens = (ofText (behindGap left)).tokens := by
  obtain ⟨l, front, left', -, hl, hto, hall, -⟩ := h
  obtain rfl := hto.unique hleft
  have hsame : behindGap (behindGap left') = behindGap left' :=
    behindGap_stop (List.append_nil _).symm
  rw [Cursor.tokens, hall]
  exact lexemesFrom_congr _ .start hl (Nat.lt_succ_self _) hsame.symm

end Cursor

/-! ## Programs that are not read -/

theorem bind_failed {α β : Type} {p : Parse α} {f : α → Parse β} {c : Cursor} {e : Failure}
    (h : (p >>= f) c = .failed e) :
    p c = .failed e ∨ ∃ a d, p c = .ok a d ∧ f a d = .failed e := by
  cases hp : p c with
  | ok a d =>
    rw [bind_of_ok hp] at h
    exact .inr ⟨a, d, rfl, h⟩
  | failed g =>
    rw [bind_of_failed hp] at h
    cases h
    exact .inl rfl
  | tooDeep =>
    rw [bind_of_tooDeep hp] at h
    cases h

/-- Reading a program fails where its statements end and something else is left. -/
theorem program_failed {depth : Nat} {c : Cursor} {f : Failure} (h : program depth c = .failed f) :
    ∃ ss d, many (statement depth) c.readGap = .ok ss d ∧ f.pos = d.start ∧
      (d.lexemes ≠ [] ∨ d.stray) := by
  have hsteps : (many (statement depth) >>= fun ss => do
      endOfText
      return (⟨c.start, ss⟩ : Program)) c.readGap = .failed f := h
  rcases bind_failed hsteps with hmany | ⟨ss, d, hmany, hrest⟩
  · exact absurd hmany (many_proceeds _ _ f)
  · rcases bind_failed hrest with hend | ⟨_, e, -, hpure⟩
    · refine ⟨ss, d, hmany, ?_⟩
      unfold endOfText at hend
      split at hend
      · cases hend
      · next hsome =>
        cases hend
        refine ⟨rfl, ?_⟩
        simpa [List.isEmpty_iff, or_iff_not_imp_left] using hsome
    · cases hpure

/-- Where something is left before a reader, the text goes on behind the gap there. -/
theorem Cursor.At.stops {c : Cursor} {text : List Char} {ts : List Token} (h : c.At text ts)
    (hmore : c.lexemes ≠ [] ∨ c.stray) : ∃ kept left, text = kept ++ behindGap left ∧
      LexedTo ts text left ∧ behindGap left ≠ [] ∧ c.start = Position.start.advance kept := by
  obtain ⟨front, skipped, blanks, left, hf⟩ := h.facing
  refine ⟨front ++ (skipped ++ blanks), left, ?_, hf.behind, ?_, hf.start_eq⟩
  · rw [List.append_assoc, List.append_assoc, ← hf.next, hf.whole]
  · intro hnil
    have htoken : c.token? = none := by simp [hf.token, hnil, Token.read?]
    have hstray : c.stray = false := by simp [hf.stray htoken, hnil]
    rcases hmore with hlexemes | htrue
    · exact hlexemes (by simpa [Cursor.token?] using htoken)
    · simp [hstray] at htrue

/-- Where the reading of a program fails, there is a character that is no blank. -/
theorem program_stops {depth : Nat} {text : List Char} {f : Failure}
    (h : program depth (Cursor.ofText text) = .failed f) : ∃ kept c rest, text = kept ++ c :: rest ∧
      ¬ Text.isBlank c ∧ f.pos = Position.start.advance kept := by
  obtain ⟨ss, d, hmany, hpos, hmore⟩ := program_failed h
  have hat := (statements_placed (statement_placed depth) (Cursor.ofText_at text) hmany).at_end
  obtain ⟨kept, left, htext, -, hrest, hstart⟩ := hat.stops hmore
  obtain ⟨c, rest, hc⟩ := List.exists_cons_of_ne_nil hrest
  exact ⟨kept, c, rest, hc ▸ htext, (behindGap_head left c rest hc).1, hpos.trans hstart⟩

/-- Where the reading of a program is stuck: the text is `kept`, all of which is a row of statements
that may be nested so deep, and then `rest`, at the front of which reading another one fails. -/
structure Stuck (depth : Nat) (text kept rest : List Char) (p : Program) (d : Cursor) : Prop where
  whole : text = kept ++ rest
  stop : behindGap rest = rest
  more : rest ≠ []
  lexed : Lexed p.tokens kept
  wellFormed : p.WellFormed
  apart : p.Apart
  nested : p.depth ≤ depth
  tokens : d.tokens = (Cursor.ofText rest).tokens
  proper : d.Proper
  refused : (∃ f, statement depth d = .failed f) ∨ d.lexemes = []

theorem program_stuck {depth : Nat} {text : List Char} {f : Failure} (hk : ¬ KeywordTouched text)
    (h : program depth (Cursor.ofText text) = .failed f) :
    ∃ kept rest p d, Stuck depth text kept rest p d ∧ f.pos = Position.start.advance kept := by
  obtain ⟨ss, c', hmany, hpos, hmore⟩ := program_failed h
  have hat := (statements_placed (statement_placed depth) (Cursor.ofText_at text) hmany).at_end
  rw [List.nil_append] at hat
  obtain ⟨kept, left, htext, hbehind, hrest, hstart⟩ := hat.stops hmore
  obtain ⟨_, hall⟩ := hat.lexedTo
  have hproper := hall.proper hk
  obtain ⟨_, hwhole⟩ := (Cursor.ofText_at text).readGap.lexedTo
  have hfirst : (Cursor.ofText text).readGap.Proper := hwhole.proper hk
  obtain ⟨kept', hcut, hlexed⟩ := hbehind.cut fun t ht => hproper t (List.mem_append_left _ ht)
  obtain rfl := List.append_cancel_right (hcut.symm.trans htext)
  obtain ⟨d, -, hend, hrefused⟩ := many_stops (statement_consumes depth) hmany
  have htokens : d.tokens = c'.tokens := by
    rw [hend]
    cases ss.isEmpty <;> rfl
  refine ⟨_, _, ⟨.start, ss⟩, d, ⟨htext, ?_, hrest, hlexed, ?_, ?_, ?_, ?_, ?_, hrefused⟩,
    hpos.trans hstart⟩
  · exact behindGap_stop (List.append_nil _).symm
  · exact (many_sound (statement_sound depth) hmany).2 hfirst
  · exact many_parted (statement_sound depth) (statement_apart depth) hmany hfirst
  · exact Stmt.depthOfEach_le (many_results (statement_depth depth) hmany)
  · rw [htokens, hat.tokens_eq hbehind]
  · intro t ht
    exact hproper t (List.mem_append_right _ (htokens ▸ ht))

namespace Stuck

variable {depth : Nat} {text kept rest : List Char} {p : Program} {d : Cursor}

/-- There is no statement where the reading is stuck. -/
theorem no_statement (h : Stuck depth text kept rest p d) (deeper : Nat) (s : Stmt) (c' : Cursor) :
    statement deeper (Cursor.ofText rest) ≠ .ok s c' := by
  intro hs
  have hproper : (Cursor.ofText rest).Proper := fun t ht => h.proper t (h.tokens ▸ ht)
  obtain ⟨hpass, hgood⟩ := statement_sound deeper hs
  obtain ⟨hapart, -⟩ := statement_apart deeper hproper hs
  have htokens : d.tokens = s.tokens ++ c'.tokens := h.tokens.trans hpass.tokens
  rcases h.refused with ⟨f, hf⟩ | hnil
  · exact statement_proceeds depth (hgood hproper) hapart htokens f hf
  · have hempty : s.tokens ++ c'.tokens = [] := by simpa [Cursor.tokens, hnil] using htokens.symm
    exact s.tokens_ne_nil (List.append_eq_nil_iff.mp hempty).1

/-- The text before the place where the reading is stuck is read as a program. -/
theorem kept_read (h : Stuck maxDepth text kept rest p d) (ht : '\t' ∉ text) :
    ∃ q, readProgram (String.ofList kept) = .ok q ∧ q.bare = p.bare := by
  have hkept : Text.expandTabs (String.ofList kept).toList = kept := by
    rw [String.toList_ofList]
    exact Text.expandTabsFrom_of_not_mem 0 fun hm => ht (h.whole ▸ List.mem_append_left _ hm)
  obtain ⟨htokens, hstray⟩ := lexed_iff.mp (hkept.symm ▸ h.lexed)
  rcases readProgram_of_tokens h.wellFormed h.apart htokens hstray with hread | ⟨hdeep, -⟩
  · exact hread
  · exact absurd h.nested (Nat.not_le_of_gt hdeep)

end Stuck

/-! ## Reports -/

/-- A keyword that a `$` touches is found in the text. -/
theorem KeywordTouched.infix {cs : List Char} (h : KeywordTouched cs) :
    ∃ k : Keyword, k.spelling.toList ++ ['$'] <:+: cs := by
  obtain ⟨ts, left, k, rest, hto, hgap⟩ := h
  refine ⟨k, ?_⟩
  have hleft : k.spelling.toList ++ ['$'] <:+: left := by
    refine List.IsInfix.trans ?_ (behindGap_suffix left).isInfix
    exact ⟨[], rest, by simp [hgap]⟩
  induction hto with
  | nil => exact hleft
  | @token t ts cs mid left hread _ ih =>
    have hmid : mid <:+ behindGap cs := ⟨t.spelling.toList, (Token.reads_of_read hread).text.symm⟩
    exact (ih hgap hleft).trans (hmid.trans (behindGap_suffix cs)).isInfix

theorem readProgram_unread {file : String} {tracing : Bool} {text : String} {m : Missing}
    {r : Report} (h : (Session.readProgram file tracing text).answer = .error (.unread m r)) :
    ∃ f, program maxDepth (Cursor.ofText (Text.expandTabs text.toList)) = .failed f ∧
      r = .ofFailure file text f := by
  unfold Session.readProgram readProgram read at h
  split at h
  · cases h
  · next e he =>
    split at he
    · cases he
    · next f hf =>
      cases he
      cases h
      exact ⟨f, hf, rfl⟩
    · cases he
      cases h

/-- A failed reading of a program points at the first thing that is wrong. The place it reports is
before the end of the text with its tabs expanded, and neither before a blank nor before a comment;
no statement can be read there, and what stands before it is read as a program. Its line counts the
newlines before it, and its column is the distance from the last of them. No `$` is to touch a
keyword. -/
theorem failure_is_first {file : String} {tracing : Bool} {text : String} {m : Missing}
    {r : Report} (h : (Session.readProgram file tracing text).answer = .error (.unread m r))
    (hk : ¬ KeywordTouched (Text.expandTabs text.toList)) :
    ∃ kept c rest, Text.expandTabs text.toList = kept ++ c :: rest ∧ r.location = kept.length ∧
      ¬ Text.isBlank c ∧ ¬ (c = '/' ∧ rest.head? = some '/') ∧
      (∀ depth s d, statement depth (Cursor.ofText (c :: rest)) ≠ .ok s d) ∧
      (∃ d, (Session.readProgram file tracing (String.ofList kept)).answer = .ok d) ∧
      r.line = 1 + kept.count '\n' ∧ r.column = r.location - Text.lastNewline kept := by
  obtain ⟨f, hf, rfl⟩ := readProgram_unread h
  obtain ⟨kept, rest, p, d, hstuck, hpos⟩ := program_stuck hk hf
  obtain ⟨c, rest, rfl⟩ := List.exists_cons_of_ne_nil hstuck.more
  obtain ⟨hblank, hcomment⟩ := behindGap_head _ _ _ hstuck.stop
  obtain ⟨q, hq, -⟩ := hstuck.kept_read (Text.not_mem_expandTabsFrom 0 text.toList)
  have hlocation : f.pos.offset = kept.length := by rw [hpos, Position.offset_start_advance]
  have hline : f.pos.line = 1 + kept.count '\n' := by
    rw [hpos, Position.line_advance]
    rfl
  have hcolumn : (f.pos.column : Int) = kept.length - Text.lastNewline kept := by
    rw [hpos, Position.column_start_advance, Text.lastNewline_eq]
    omega
  refine ⟨kept, c, rest, hstuck.whole, ?_, hblank, fun hc => hcomment hc.1 hc.2,
    fun depth s d => hstuck.no_statement depth s d, ?_, ?_, ?_⟩
  · exact congrArg Nat.cast hlocation
  · exact ⟨q.toDatum file, by simp [Session.readProgram, hq]⟩
  · simp [Report.ofFailure, Report.make, hline]
  · simp [Report.ofFailure, Report.make, hcolumn, hlocation]

/-- A stray parenthesis on the second line. -/
theorem parenthesis_is_first :
    ∃ m r kept c rest, (Session.readProgram "<input>" false "var x = 1\n) y").answer =
        .error (.unread m r) ∧
      "var x = 1\n) y".toList = kept ++ c :: rest ∧ r.location = kept.length ∧
      r.line = 1 + kept.count '\n' := by
  have hread : ∃ m r, (Session.readProgram "<input>" false "var x = 1\n) y").answer =
      .error (.unread m r) := ⟨_, _, rfl⟩
  have hk : ¬ KeywordTouched (Text.expandTabs "var x = 1\n) y".toList) := by
    intro h
    obtain ⟨k, front, back, hinfix⟩ := h.infix
    have hdollar : '$' ∈ Text.expandTabs "var x = 1\n) y".toList := by
      rw [← hinfix]
      simp
    revert hdollar
    decide
  obtain ⟨m, r, hr⟩ := hread
  obtain ⟨kept, c, rest, htext, hlocation, -, -, -, -, hline, -⟩ := failure_is_first hr hk
  exact ⟨m, r, kept, c, rest, hr, htext, hlocation, hline⟩

end Bronti.Syntax
