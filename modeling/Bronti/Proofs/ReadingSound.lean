import Bronti.Proofs.Advance

/-!
Reading is sound: where a text is read as a program, the program is one of the grammar, and the text
is laid out from its tokens.
-/
namespace Bronti.Syntax

open Parse

/-! ## Expressions -/

/-- An expression whose operators all bind at least as tightly as a rank. -/
def Expr.Within (r : Nat) (e : Expr) : Prop := e.WellFormed ∧ r ≤ e.rank

theorem names_sound : Sound name (fun s => [.name s]) IsName := by
  intro c s c' h
  have hpass := name_ok h
  exact ⟨hpass, fun hc => hpass.proper_passed hc (.name s) (by simp)⟩

section Expressions

variable {inner : Parse Expr}

theorem call_sound (hi : Sound inner Expr.tokens Expr.WellFormed) :
    Sound (callWith inner) Expr.tokens (Expr.Within 5) := by
  intro c e c' h
  obtain ⟨pos, _, hpos, h⟩ := bind_ok h
  rw [here_ok hpos] at h
  obtain ⟨callee, c₁, hname, h⟩ := bind_ok h
  obtain ⟨_, c₂, hopen, h⟩ := bind_ok h
  obtain ⟨args, c₃, hargs, h⟩ := bind_ok h
  obtain ⟨_, c₄, hclose, h⟩ := bind_ok h
  obtain ⟨rfl, rfl⟩ := pure_ok h
  obtain ⟨p₁, hn⟩ := names_sound hname
  have p₂ := p₁.trans (mark_ok hopen)
  obtain ⟨p₃, hall⟩ := commaList_sound hi hargs
  have hp := (p₂.trans p₃).trans (mark_ok hclose)
  refine ⟨?_, fun hc => ⟨.call (hn hc) (hall (p₂.proper hc)), Nat.le_refl _⟩⟩
  simpa [Expr.tokens, Expr.tokens_of_each] using hp

theorem reference_sound : Sound reference Expr.tokens (Expr.Within 5) := by
  intro c e c' h
  obtain ⟨pos, _, hpos, h⟩ := bind_ok h
  rw [here_ok hpos] at h
  obtain ⟨text, c₁, hname, h⟩ := bind_ok h
  obtain ⟨rfl, rfl⟩ := pure_ok h
  obtain ⟨hpass, hn⟩ := names_sound hname
  exact ⟨hpass, fun hc => ⟨.reference (hn hc), Nat.le_refl _⟩⟩

theorem parens_sound (hi : Sound inner Expr.tokens Expr.WellFormed) :
    Sound (parensWith inner) Expr.tokens (Expr.Within 5) := by
  intro c e c' h
  obtain ⟨pos, _, hpos, h⟩ := bind_ok h
  rw [start_ok hpos] at h
  obtain ⟨_, c₁, hopen, h⟩ := bind_ok h
  obtain ⟨e, c₂, he, h⟩ := bind_ok h
  obtain ⟨_, c₃, hclose, h⟩ := bind_ok h
  obtain ⟨rfl, rfl⟩ := pure_ok h
  have p₁ := mark_ok hopen
  obtain ⟨p₂, hw⟩ := hi he
  refine ⟨(p₁.trans p₂).trans (mark_ok hclose), ?_⟩
  exact fun hc => ⟨.parens (hw (p₁.proper hc)), Nat.le_refl _⟩

theorem atom_sound (hi : Sound inner Expr.tokens Expr.WellFormed) :
    Sound (atomWith inner) Expr.tokens (Expr.Within 5) := by
  intro c e c' h
  unfold atomWith at h
  split at h
  · rcases orElse_ok h with h | h
    · exact call_sound hi h
    · exact reference_sound h
  · next text ht =>
    cases h
    have hpass := Advance.skip ht
    refine ⟨hpass, fun hc => ⟨.literal ?_, Nat.le_refl _⟩⟩
    exact hpass.proper_passed hc (.literal text) (by simp)
  · exact parens_sound hi h
  · cases h

/-- The tokens of an operator and its right operand. -/
def operationTokens (r : Operator × Expr) : List Token := .operator r.1 :: r.2.tokens

/-- Operations behind an operand, taken from the left. -/
def folded (first : Expr) (rest : List (Operator × Expr)) : Expr :=
  rest.foldl (fun left r => .operation left r.1 r.2) first

theorem tokens_folded (rest : List (Operator × Expr)) (first : Expr) :
    (folded first rest).tokens = first.tokens ++ rest.flatMap operationTokens := by
  induction rest generalizing first with
  | nil => simp [folded]
  | cons r rest ih =>
    refine (ih _).trans ?_
    simp [Expr.tokens, operationTokens]

/-- Operations of one level from the left make an expression of this level. -/
theorem within_folded (l : Operator.Level) (rest : List (Operator × Expr))
    (hr : ∀ r ∈ rest, r.1.level = l ∧ r.2.Within (l.rank + 1)) (first : Expr)
    (hf : first.Within l.rank) : (folded first rest).Within l.rank := by
  induction rest generalizing first with
  | nil => exact hf
  | cons r rest ih =>
    obtain ⟨hl, hw⟩ := hr r (by simp)
    refine ih (fun q hq => hr q (by simp [hq])) _ ⟨.operation hf.1 hw.1 ?_ ?_, ?_⟩
    · rw [hl]
      exact hf.2
    · rw [hl]
      exact hw.2
    · simp [Expr.rank, hl]

theorem level_sound (l : Operator.Level) {operand : Parse Expr}
    (ho : Sound operand Expr.tokens (Expr.Within (l.rank + 1))) :
    Sound (levelWith l operand) Expr.tokens (Expr.Within l.rank) := by
  have hmore : Sound (operationWith l operand) operationTokens
      (fun r => r.1.level = l ∧ r.2.Within (l.rank + 1)) := by
    intro c r c' h
    obtain ⟨op, c₁, hop, h⟩ := bind_ok h
    obtain ⟨right, c₂, hright, h⟩ := bind_ok h
    obtain ⟨rfl, rfl⟩ := pure_ok h
    obtain ⟨hl, p₁⟩ := operator_ok hop
    obtain ⟨p₂, hw⟩ := ho hright
    exact ⟨p₁.trans p₂, fun hc => ⟨hl, hw (p₁.proper hc)⟩⟩
  intro c e c' h
  obtain ⟨first, c₁, hfirst, h⟩ := bind_ok h
  obtain ⟨rest, c₂, hrest, h⟩ := bind_ok h
  obtain ⟨rfl, rfl⟩ := pure_ok h
  obtain ⟨p₁, hf⟩ := ho hfirst
  obtain ⟨p₂, hr⟩ := many_sound hmore hrest
  change Advance c (folded first rest).tokens c' ∧ _
  rw [tokens_folded]
  refine ⟨p₁.trans p₂, fun hc => ?_⟩
  have hleft : first.Within l.rank := ⟨(hf hc).1, Nat.le_of_lt (hf hc).2⟩
  exact within_folded l rest (hr (p₁.proper hc)) first hleft

theorem expression_sound (depth : Nat) :
    Sound (expression depth) Expr.tokens Expr.WellFormed := by
  induction depth with
  | zero =>
    intro c e c' h
    cases h
  | succ depth ih =>
    intro c e c' h
    have hlevels : Sound (expressionWith (expression depth)) Expr.tokens (Expr.Within 0) :=
      level_sound .disjunction <| level_sound .conjunction <| level_sound .comparison <|
        level_sound .sum <| level_sound .product <| atom_sound ih
    obtain ⟨hpass, hin⟩ := hlevels h
    exact ⟨hpass, fun hc => (hin hc).1⟩

end Expressions

/-! ## Statements -/

section Statements

variable {expression : Parse Expr} {statement : Parse Stmt}

theorem body_sound (hs : Sound statement Stmt.tokens Stmt.WellFormed) :
    Sound (bodyWith statement) Body.tokens Body.WellFormed := by
  intro c b c' h
  obtain ⟨brace, _, hbrace, h⟩ := bind_ok h
  rw [start_ok hbrace] at h
  obtain ⟨_, c₁, hopen, h⟩ := bind_ok h
  obtain ⟨pos, _, hpos, h⟩ := bind_ok h
  rw [start_ok hpos] at h
  obtain ⟨_, c₂, hgap, h⟩ := bind_ok h
  obtain ⟨statements, c₃, hmany, h⟩ := bind_ok h
  obtain ⟨_, c₄, hclose, h⟩ := bind_ok h
  obtain ⟨rfl, rfl⟩ := pure_ok h
  have p₂ := (mark_ok hopen).trans (readGap_ok hgap)
  obtain ⟨p₃, hall⟩ := many_sound hs hmany
  have hp := (p₂.trans p₃).trans (mark_ok hclose)
  refine ⟨?_, fun hc => .braced (hall (p₂.proper hc))⟩
  simpa [Body.tokens, Stmt.tokens_of_all] using hp

theorem function_sound (hs : Sound statement Stmt.tokens Stmt.WellFormed) :
    Sound (functionWith statement) Stmt.tokens Stmt.WellFormed := by
  intro c s c' h
  obtain ⟨pos, _, hpos, h⟩ := bind_ok h
  rw [start_ok hpos] at h
  obtain ⟨_, c₁, hkey, h⟩ := bind_ok h
  obtain ⟨text, c₂, hname, h⟩ := bind_ok h
  obtain ⟨_, c₃, hopen, h⟩ := bind_ok h
  obtain ⟨params, c₄, hparams, h⟩ := bind_ok h
  obtain ⟨_, c₅, hclose, h⟩ := bind_ok h
  obtain ⟨body, c₆, hbody, h⟩ := bind_ok h
  obtain ⟨rfl, rfl⟩ := pure_ok h
  have p₁ := keyword_ok hkey
  obtain ⟨p₂, hn⟩ := names_sound hname
  have p₃ := (p₁.trans p₂).trans (mark_ok hopen)
  obtain ⟨p₄, hall⟩ := commaList_sound names_sound hparams
  have p₅ := (p₃.trans p₄).trans (mark_ok hclose)
  obtain ⟨p₆, hb⟩ := body_sound hs hbody
  refine ⟨?_, fun hc => ?_⟩
  · simpa [Stmt.tokens] using p₅.trans p₆
  · exact .function (hn (p₁.proper hc)) (hall (p₃.proper hc)) (hb (p₅.proper hc))

theorem declaration_sound (he : Sound expression Expr.tokens Expr.WellFormed) :
    Sound (declarationWith expression) Stmt.tokens Stmt.WellFormed := by
  intro c s c' h
  obtain ⟨pos, _, hpos, h⟩ := bind_ok h
  rw [start_ok hpos] at h
  obtain ⟨_, c₁, hkey, h⟩ := bind_ok h
  obtain ⟨text, c₂, hname, h⟩ := bind_ok h
  obtain ⟨initializer, c₃, hinit, h⟩ := bind_ok h
  obtain ⟨rfl, rfl⟩ := pure_ok h
  have p₁ := keyword_ok hkey
  obtain ⟨p₂, hn⟩ := names_sound hname
  have p₁₂ := p₁.trans p₂
  obtain ⟨p₃, hw⟩ := optional_sound (after_sound mark_ok he) hinit
  refine ⟨?_, fun hc => .declaration (hn (p₁.proper hc)) (hw (p₁₂.proper hc))⟩
  have hp := p₁₂.trans p₃
  cases initializer with
  | none => exact hp
  | some e => exact hp

/-- The tokens of a condition in parentheses. -/
def conditionTokens (e : Expr) : List Token :=
  .mark .openParen :: (e.tokens ++ [.mark .closeParen])

theorem condition_sound (he : Sound expression Expr.tokens Expr.WellFormed) :
    Sound (conditionWith expression) conditionTokens Expr.WellFormed := by
  intro c e c' h
  obtain ⟨_, c₁, hopen, h⟩ := bind_ok h
  obtain ⟨e, c₂, hvalue, h⟩ := bind_ok h
  obtain ⟨_, c₃, hclose, h⟩ := bind_ok h
  obtain ⟨rfl, rfl⟩ := pure_ok h
  have p₁ := mark_ok hopen
  obtain ⟨p₂, hw⟩ := he hvalue
  exact ⟨(p₁.trans p₂).trans (mark_ok hclose), fun hc => hw (p₁.proper hc)⟩

theorem loop_sound (he : Sound expression Expr.tokens Expr.WellFormed)
    (hs : Sound statement Stmt.tokens Stmt.WellFormed) :
    Sound (loopWith expression statement) Stmt.tokens Stmt.WellFormed := by
  intro c s c' h
  obtain ⟨pos, _, hpos, h⟩ := bind_ok h
  rw [start_ok hpos] at h
  obtain ⟨_, c₁, hkey, h⟩ := bind_ok h
  obtain ⟨condition, c₂, hcond, h⟩ := bind_ok h
  obtain ⟨body, c₃, hbody, h⟩ := bind_ok h
  obtain ⟨rfl, rfl⟩ := pure_ok h
  have p₁ := keyword_ok hkey
  obtain ⟨p₂, hw⟩ := condition_sound he hcond
  have p₁₂ := p₁.trans p₂
  obtain ⟨p₃, hb⟩ := body_sound hs hbody
  refine ⟨?_, fun hc => .loop (hw (p₁.proper hc)) (hb (p₁₂.proper hc))⟩
  simpa [Stmt.tokens, conditionTokens] using p₁₂.trans p₃

theorem branch_sound (he : Sound expression Expr.tokens Expr.WellFormed)
    (hs : Sound statement Stmt.tokens Stmt.WellFormed) :
    Sound (branchWith expression statement) Stmt.tokens Stmt.WellFormed := by
  intro c s c' h
  obtain ⟨pos, _, hpos, h⟩ := bind_ok h
  rw [start_ok hpos] at h
  obtain ⟨_, c₁, hkey, h⟩ := bind_ok h
  obtain ⟨condition, c₂, hcond, h⟩ := bind_ok h
  obtain ⟨positive, c₃, hpositive, h⟩ := bind_ok h
  obtain ⟨negative, c₄, hnegative, h⟩ := bind_ok h
  obtain ⟨rfl, rfl⟩ := pure_ok h
  have p₁ := keyword_ok hkey
  obtain ⟨p₂, hw⟩ := condition_sound he hcond
  have p₁₂ := p₁.trans p₂
  obtain ⟨p₃, hp⟩ := body_sound hs hpositive
  have p₁₃ := p₁₂.trans p₃
  obtain ⟨p₄, hn⟩ := optional_sound (after_sound keyword_ok (body_sound hs)) hnegative
  refine ⟨?_, fun hc =>
    .branch (hw (p₁.proper hc)) (hp (p₁₂.proper hc)) (hn (p₁₃.proper hc))⟩
  have hpass := p₁₃.trans p₄
  rw [Stmt.tokens_branch]
  cases negative with
  | none => simpa [Stmt.tokensOfNegative, conditionTokens] using hpass
  | some b => simpa [Stmt.tokensOfNegative, conditionTokens] using hpass

theorem result_sound (he : Sound expression Expr.tokens Expr.WellFormed) :
    Sound (resultWith expression) Stmt.tokens Stmt.WellFormed := by
  intro c s c' h
  obtain ⟨pos, _, hpos, h⟩ := bind_ok h
  rw [start_ok hpos] at h
  obtain ⟨_, c₁, hkey, h⟩ := bind_ok h
  obtain ⟨e, c₂, hvalue, h⟩ := bind_ok h
  obtain ⟨rfl, rfl⟩ := pure_ok h
  have p₁ := keyword_ok hkey
  obtain ⟨p₂, hw⟩ := he hvalue
  exact ⟨p₁.trans p₂, fun hc => .result (hw (p₁.proper hc))⟩

theorem assignment_sound (he : Sound expression Expr.tokens Expr.WellFormed) :
    Sound (assignmentWith expression) Stmt.tokens Stmt.WellFormed := by
  intro c s c' h
  obtain ⟨pos, _, hpos, h⟩ := bind_ok h
  rw [here_ok hpos] at h
  obtain ⟨text, c₁, hname, h⟩ := bind_ok h
  obtain ⟨_, c₂, hassign, h⟩ := bind_ok h
  obtain ⟨e, c₃, hvalue, h⟩ := bind_ok h
  obtain ⟨rfl, rfl⟩ := pure_ok h
  obtain ⟨p₁, hn⟩ := names_sound hname
  have p₂ := p₁.trans (mark_ok hassign)
  obtain ⟨p₃, hw⟩ := he hvalue
  exact ⟨p₂.trans p₃, fun hc => .assignment (hn hc) (hw (p₂.proper hc))⟩

theorem expressionStatement_sound (he : Sound expression Expr.tokens Expr.WellFormed) :
    Sound (expressionStatementWith expression) Stmt.tokens Stmt.WellFormed := by
  intro c s c' h
  obtain ⟨pos, _, hpos, h⟩ := bind_ok h
  rw [here_ok hpos] at h
  obtain ⟨e, c₁, hvalue, h⟩ := bind_ok h
  obtain ⟨rfl, rfl⟩ := pure_ok h
  obtain ⟨hpass, hw⟩ := he hvalue
  exact ⟨hpass, fun hc => .expression (hw hc)⟩

theorem statementWith_sound (he : Sound expression Expr.tokens Expr.WellFormed)
    (hs : Sound statement Stmt.tokens Stmt.WellFormed) :
    Sound (statementWith expression statement) Stmt.tokens Stmt.WellFormed := by
  intro c s c' h
  unfold statementWith at h
  split at h
  · exact function_sound hs h
  · exact declaration_sound he h
  · exact loop_sound he hs h
  · exact branch_sound he hs h
  · exact result_sound he h
  · rcases orElse_ok h with h | h
    · exact assignment_sound he h
    · exact expressionStatement_sound he h

end Statements

theorem statement_sound (depth : Nat) :
    Sound (statement depth) Stmt.tokens Stmt.WellFormed := by
  induction depth with
  | zero =>
    intro c s c' h
    cases h
  | succ depth ih => exact statementWith_sound (expression_sound depth) ih

/-! ## Programs -/

/-- A program is read to the end of the text. -/
theorem program_sound (depth : Nat) {c c' : Cursor} {p : Program}
    (h : program depth c = .ok p c') :
    c.tokens = p.tokens ∧ c.stray = false ∧ (c.Proper → p.WellFormed) := by
  obtain ⟨pos, _, hpos, h⟩ := bind_ok h
  rw [start_ok hpos] at h
  obtain ⟨_, c₁, hgap, h⟩ := bind_ok h
  obtain ⟨statements, c₂, hmany, h⟩ := bind_ok h
  obtain ⟨_, c₃, hend, h⟩ := bind_ok h
  obtain ⟨rfl, rfl⟩ := pure_ok h
  obtain ⟨hnil, hstray, rfl⟩ := endOfText_ok hend
  have p₁ := readGap_ok hgap
  obtain ⟨p₂, hall⟩ := many_sound (statement_sound depth) hmany
  have hp := p₁.trans p₂
  refine ⟨?_, hp.stray.symm.trans hstray, fun hc => hall (p₁.proper hc)⟩
  have ht := hp.tokens
  rw [hnil] at ht
  simpa [Program.tokens, Stmt.tokens_of_all] using ht

/-! ## Texts -/

theorem read_ok {α : Type} {p : Parse α} {text : String} {a : α} (h : read p text = .ok a) :
    ∃ c', p (Cursor.ofText (Text.expandTabs text.toList)) = .ok a c' := by
  unfold read at h
  split at h
  · next a c' ha =>
    cases h
    exact ⟨c', ha⟩
  · cases h
  · cases h

theorem readProgram_ok {text : String} {p : Program} (h : readProgram text = .ok p) :
    ∃ c', program maxDepth (Cursor.ofText (Text.expandTabs text.toList)) = .ok p c' := read_ok h

/-- A text all of which is tokens, blanks and comments has proper tokens only. -/
theorem ofText_proper {text : String}
    (h : (Cursor.ofText (Text.expandTabs text.toList)).stray = false) :
    (Cursor.ofText (Text.expandTabs text.toList)).Proper := by
  have hu : (Lexemes.ofText (Text.expandTabs text.toList)).unread = [] := by
    simpa [Cursor.ofText] using h
  exact (lexemes_layout _ _ (Expansion.expandTabsFrom 0 text.toList) hu).2

theorem readProgram_wellFormed {text : String} {p : Program} (h : readProgram text = .ok p) :
    p.WellFormed := by
  obtain ⟨c', hp⟩ := read_ok h
  obtain ⟨-, hstray, hgood⟩ := program_sound maxDepth hp
  exact hgood (ofText_proper hstray)

/-- A reading that the end of the text follows has left no token and nothing stray. -/
theorem complete_ok {α : Type} {p : Parse α} {text : String} {a : α}
    (h : read (complete p) text = .ok a) :
    ∃ c', p (Cursor.ofText (Text.expandTabs text.toList)) = .ok a c' ∧ c'.tokens = [] ∧
      c'.stray = false := by
  obtain ⟨c', hread⟩ := read_ok h
  obtain ⟨a, c₁, ha, hend⟩ := bind_ok hread
  obtain ⟨_, c₂, hend, hpure⟩ := bind_ok hend
  obtain ⟨rfl, rfl⟩ := pure_ok hpure
  obtain ⟨hnil, hstray, rfl⟩ := endOfText_ok hend
  exact ⟨_, ha, hnil, hstray⟩

/-- What is read up to the end of a text is good. -/
theorem complete_good {α : Type} {p : Parse α} {write : α → List Token} {good : α → Prop}
    (hp : Sound p write good) {text : String} {a : α} (h : read (complete p) text = .ok a) :
    good a := by
  obtain ⟨c', ha, -, hstray⟩ := complete_ok h
  obtain ⟨hpass, hgood⟩ := hp ha
  exact hgood (ofText_proper (hpass.stray.symm.trans hstray))

theorem readStatement_wellFormed {text : String} {s : Stmt} (h : readStatement text = .ok s) :
    s.WellFormed := complete_good (statement_sound maxDepth) h

theorem readExpression_wellFormed {text : String} {e : Expr} (h : readExpression text = .ok e) :
    e.WellFormed := complete_good (expression_sound maxDepth) h

/-- A text that is read as a program consists of the tokens of the program, with blanks and comments
before, between and behind them, and the program is one of the grammar. -/
theorem readProgram_sound {text : String} {p : Program} (h : readProgram text = .ok p) :
    p.WellFormed ∧ Layout p.tokens text.toList := by
  obtain ⟨c', hp⟩ := readProgram_ok h
  obtain ⟨htokens, hstray, hgood⟩ := program_sound maxDepth hp
  have hu : (Lexemes.ofText (Text.expandTabs text.toList)).unread = [] := by
    simpa [Cursor.ofText] using hstray
  obtain ⟨hlay, hproper⟩ := lexemes_layout _ _ (Expansion.expandTabsFrom 0 text.toList) hu
  refine ⟨hgood hproper, ?_⟩
  rw [← htokens]
  exact hlay

/-- A declaration with a comment and a tab inside. -/
theorem commented_declaration_sound :
    ∃ p, readProgram "var x // one\n\t= 1" = .ok p ∧ p.WellFormed ∧
      Layout p.tokens "var x // one\n\t= 1".toList := by
  have hread : ∃ p, readProgram "var x // one\n\t= 1" = .ok p := ⟨_, rfl⟩
  obtain ⟨p, hp⟩ := hread
  obtain ⟨hgood, hlay⟩ := readProgram_sound hp
  exact ⟨p, hp, hgood, hlay⟩

end Bronti.Syntax
