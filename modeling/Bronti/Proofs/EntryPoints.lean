import Bronti.Proofs.Joining

/-!
The three ways into the grammar agree. What a text is read as depends on its tokens alone, whichever
reading comes to them. A program of one statement has the tokens of the statement, and a statement
that is an expression has those of the expression.
-/
namespace Bronti.Syntax

open Parse

/-- The program is one of the grammar, and a text consists of its tokens. -/
structure Program.SpelledBy (p : Program) (text : String) : Prop where
  wellFormed : p.WellFormed
  apart : p.Apart
  lexed : Lexed p.tokens (Text.expandTabs text.toList)

/-- The statement is one of the grammar, and a text consists of its tokens. -/
structure Stmt.SpelledBy (s : Stmt) (text : String) : Prop where
  wellFormed : s.WellFormed
  apart : s.Apart
  lexed : Lexed s.tokens (Text.expandTabs text.toList)

/-- The expression is one of the grammar, and a text consists of its tokens. -/
structure Expr.SpelledBy (e : Expr) (text : String) : Prop where
  wellFormed : e.WellFormed
  lexed : Lexed e.tokens (Text.expandTabs text.toList)

variable {text : String} {depth : Nat}

/-! ## One statement, one expression -/

/-- A program of one statement is spelled like the statement. -/
theorem Program.spelledBy_single {p : Program} {s : Stmt} (hp : p.statements = [s]) :
    p.SpelledBy text ↔ s.SpelledBy text := by
  have htokens : p.tokens = s.tokens := by
    simp [Program.tokens, Stmt.tokensOfAll, hp]
  constructor
  · intro h
    have hmem : s ∈ p.statements := by simp [hp]
    exact ⟨h.wellFormed s hmem, h.apart.2 s hmem, htokens ▸ h.lexed⟩
  · intro h
    refine ⟨?_, ⟨by simp [hp], ?_⟩, htokens ▸ h.lexed⟩
    · rw [Program.WellFormed, hp]
      exact List.forall_mem_singleton.mpr h.wellFormed
    · rw [hp]
      exact List.forall_mem_singleton.mpr h.apart

/-- What is a program of one statement up to places has one statement. -/
theorem Program.bare_eq_single {p : Program} {s : Stmt} {pos : Text.Position}
    (h : p.bare = (Program.mk pos [s]).bare) : ∃ t, p.statements = [t] ∧ t.bare = s.bare := by
  have hmap : p.statements.map Stmt.bare = [s.bare] := by
    simpa [Program.bare, Stmt.bare_of_each] using h
  exact List.map_eq_singleton_iff.mp hmap

/-- A statement that is an expression is spelled like the expression. -/
theorem Stmt.spelledBy_expression {pos : Text.Position} {e : Expr} :
    (Stmt.expression e pos).SpelledBy text ↔ e.SpelledBy text := by
  constructor
  · intro h
    cases h.wellFormed with
    | expression hw => exact ⟨hw, h.lexed⟩
  · exact fun h => ⟨.expression h.wellFormed, .expression, h.lexed⟩

/-- Only an expression is a statement of an expression, up to places. -/
theorem Stmt.bare_eq_expression {s : Stmt} {e : Expr} {pos : Text.Position}
    (h : s.bare = (Stmt.expression e pos).bare) :
    ∃ e' pos', s = .expression e' pos' ∧ e'.bare = e.bare := by
  cases s with
  | expression e' pos' => exact ⟨e', pos', rfl, by simpa [Stmt.bare] using h⟩
  | branch condition positive negative pos' =>
    rw [Stmt.bare_branch] at h
    simp [Stmt.bare] at h
  | _ => simp [Stmt.bare] at h

/-! ## What is read is spelled by the text -/

theorem program_spelledBy {p : Program} (h : read (program depth) text = .ok p) :
    p.SpelledBy text := by
  obtain ⟨c', hp⟩ := read_ok h
  obtain ⟨htokens, hstray, hgood⟩ := program_sound depth hp
  have hproper := ofText_proper hstray
  exact ⟨hgood hproper, program_apart depth hproper hp, lexed_iff.mpr ⟨htokens, hstray⟩⟩

/-- A complete reading goes along all tokens of the text, and these are proper. -/
theorem complete_lexed {α : Type} {p : Parse α} {write : α → List Token} {good : α → Prop}
    (hp : Sound p write good) {a : α} (h : read (complete p) text = .ok a) :
    Lexed (write a) (Text.expandTabs text.toList) := by
  obtain ⟨c', ha, hnil, hstray⟩ := complete_ok h
  obtain ⟨hpass, -⟩ := hp ha
  have htokens : tokensOf text = write a := by
    rw [tokensOf, hpass.tokens, hnil, List.append_nil]
  exact lexed_iff.mpr ⟨htokens, hpass.stray.symm.trans hstray⟩

theorem statement_spelledBy {s : Stmt} (h : read (complete (statement depth)) text = .ok s) :
    s.SpelledBy text := by
  have hlexed := complete_lexed (statement_sound depth) h
  have hproper := ofText_proper (lexed_iff.mp hlexed).2
  obtain ⟨c', hs, -, -⟩ := complete_ok h
  exact ⟨complete_good (statement_sound depth) h, (statement_apart depth hproper hs).1, hlexed⟩

theorem expression_spelledBy {e : Expr} (h : read (complete (expression depth)) text = .ok e) :
    e.SpelledBy text :=
  ⟨complete_good (expression_sound depth) h, complete_lexed (expression_sound depth) h⟩

/-! ## What is spelled by the text is read -/

theorem program_of_spelledBy {t : Program} (h : t.SpelledBy text)
    (hdeep : read (program depth) text ≠ .error .tooDeep) :
    ∃ p, read (program depth) text = .ok p ∧ p.bare = t.bare := by
  obtain ⟨htokens, hstray⟩ := lexed_iff.mp h.lexed
  have hnested : depth < t.depth → True := fun _ => trivial
  have hread := program_completes h.wellFormed h.apart hnested (fun _ => trivial) htokens hstray
  rcases hread with ⟨p, c', hp, hbare⟩ | ⟨-, ht⟩
  · exact ⟨p, by simp [read, hp], hbare⟩
  · exact absurd (by simp [read, ht]) hdeep

/-- A reading that passes along all tokens of the text comes to the end of it. -/
theorem read_complete {α : Type} {p : Parse α} {good : α → Prop} {ts : List Token}
    (hlexed : Lexed ts (Text.expandTabs text.toList))
    (hp : ∀ c : Cursor, c.tokens = ts → Passes True p c [] good)
    (hdeep : read (complete p) text ≠ .error .tooDeep) :
    ∃ a, read (complete p) text = .ok a ∧ good a := by
  obtain ⟨htokens, hstray⟩ := lexed_iff.mp hlexed
  rcases hp _ htokens with ⟨a, d, ha, hnil, hd, hgood⟩ | ⟨-, ht⟩
  · have hend : endOfText d = .ok () d := endOfText_passes hnil (hd.trans hstray)
    have hread : complete p (Cursor.ofText (Text.expandTabs text.toList)) = .ok a d :=
      (bind_of_ok ha).trans (bind_of_ok hend)
    exact ⟨a, by simp [read, hread], hgood⟩
  · have hread : complete p (Cursor.ofText (Text.expandTabs text.toList)) = .tooDeep :=
      bind_of_tooDeep ht
    exact absurd (by simp [read, hread]) hdeep

theorem statement_of_spelledBy {s : Stmt} (h : s.SpelledBy text)
    (hdeep : read (complete (statement depth)) text ≠ .error .tooDeep) :
    ∃ s', read (complete (statement depth)) text = .ok s' ∧ s'.bare = s.bare := by
  refine read_complete h.lexed (fun c hc => ?_) hdeep
  exact statement_completes depth s c [] h.wellFormed h.apart (fun _ => trivial)
    (s.leaves_end (by simp)) (by simpa using hc)

theorem expression_of_spelledBy {e : Expr} (h : e.SpelledBy text)
    (hdeep : read (complete (expression depth)) text ≠ .error .tooDeep) :
    ∃ e', read (complete (expression depth)) text = .ok e' ∧ e'.bare = e.bare := by
  refine read_complete h.lexed (fun c hc => ?_) hdeep
  exact expression_completes depth e c [] ⟨h.wellFormed, Nat.zero_le _⟩ (fun _ => trivial)
    (by simp [Expr.Leaves]) (by simpa using hc)

/-! ## Agreement -/

/-- A text that is a statement is a program of it. -/
theorem program_of_statement {s : Stmt} (h : s.SpelledBy text)
    (hdeep : read (program depth) text ≠ .error .tooDeep) :
    ∃ p t, read (program depth) text = .ok p ∧ p.statements = [t] ∧ t.bare = s.bare := by
  have hone : (Program.mk .start [s]).SpelledBy text := (Program.spelledBy_single rfl).mpr h
  obtain ⟨p, hp, hbare⟩ := program_of_spelledBy hone hdeep
  obtain ⟨t, ht, htbare⟩ := Program.bare_eq_single hbare
  exact ⟨p, t, hp, ht, htbare⟩

/-- The three ways into the grammar agree, with whatever bounds on the nesting and for any text that
is not nested too deep. A text is a statement where it is a program of this one statement up to
places, and it is an expression where it is a program of the one statement that the expression
makes. -/
theorem entry_points_agree (text : String) (depth depth' : Nat)
    (hprogram : read (program depth) text ≠ .error .tooDeep) :
    (read (complete (statement depth')) text ≠ .error .tooDeep → ∀ s : Stmt,
      (∃ s', read (complete (statement depth')) text = .ok s' ∧ s'.bare = s.bare) ↔
        ∃ p t, read (program depth) text = .ok p ∧ p.statements = [t] ∧ t.bare = s.bare) ∧
    (read (complete (expression depth')) text ≠ .error .tooDeep → ∀ e : Expr,
      (∃ e', read (complete (expression depth')) text = .ok e' ∧ e'.bare = e.bare) ↔
        ∃ p e' pos, read (program depth) text = .ok p ∧ p.statements = [.expression e' pos] ∧
          e'.bare = e.bare) := by
  -- each time the tokens of the one tree are those of the other, so that the other reading passes
  refine ⟨fun hstatement s => ⟨fun h => ?_, fun h => ?_⟩,
    fun hexpression e => ⟨fun h => ?_, fun h => ?_⟩⟩
  · obtain ⟨s', hs', hbare⟩ := h
    obtain ⟨p, t, hp, ht, htbare⟩ := program_of_statement (statement_spelledBy hs') hprogram
    exact ⟨p, t, hp, ht, htbare.trans hbare⟩
  · obtain ⟨p, t, hp, ht, hbare⟩ := h
    have hspelled := (Program.spelledBy_single ht).mp (program_spelledBy hp)
    obtain ⟨s', hs', hsbare⟩ := statement_of_spelledBy hspelled hstatement
    exact ⟨s', hs', hsbare.trans hbare⟩
  · obtain ⟨e', he', hbare⟩ := h
    have hspelled : (Stmt.expression e' .start).SpelledBy text :=
      Stmt.spelledBy_expression.mpr (expression_spelledBy he')
    obtain ⟨p, t, hp, ht, htbare⟩ := program_of_statement hspelled hprogram
    obtain ⟨d, pos, rfl, hdbare⟩ := Stmt.bare_eq_expression htbare
    exact ⟨p, d, pos, hp, ht, hdbare.trans hbare⟩
  · obtain ⟨p, d, pos, hp, hd, hbare⟩ := h
    have hspelled := (Program.spelledBy_single hd).mp (program_spelledBy hp)
    obtain ⟨e', he', hebare⟩ :=
      expression_of_spelledBy (Stmt.spelledBy_expression.mp hspelled) hexpression
    exact ⟨e', he', hebare.trans hbare⟩

/-- A sum with a comment before it, as a statement and as an expression. -/
theorem commented_sum_agrees :
    ∃ p e pos, readProgram "// sum\n f(1) + x" = .ok p ∧ p.statements = [.expression e pos] ∧
      (∃ s, readStatement "// sum\n f(1) + x" = .ok s ∧ s.bare = (Stmt.expression e pos).bare) ∧
      ∃ e', readExpression "// sum\n f(1) + x" = .ok e' ∧ e'.bare = e.bare := by
  have hread : ∃ p e pos, readProgram "// sum\n f(1) + x" = .ok p ∧
      p.statements = [.expression e pos] := ⟨_, _, _, rfl, rfl⟩
  obtain ⟨p, e, pos, hp, hone⟩ := hread
  have hprogram : readProgram "// sum\n f(1) + x" ≠ .error .tooDeep := by simp [hp]
  have hstatement : readStatement "// sum\n f(1) + x" ≠ .error .tooDeep := nofun
  have hexpression : readExpression "// sum\n f(1) + x" ≠ .error .tooDeep := nofun
  obtain ⟨hs, he⟩ := entry_points_agree _ maxDepth maxDepth hprogram
  exact ⟨p, e, pos, hp, hone, (hs hstatement _).mpr ⟨p, _, hp, hone, rfl⟩,
    (he hexpression _).mpr ⟨p, e, pos, hp, hone, rfl⟩⟩

end Bronti.Syntax
