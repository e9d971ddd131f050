import Bronti.Proofs.ReadingComplete

/-!
What is read is parted. A name is read as a reference only where no call can be read, so that no
expression in parentheses follows a statement that ends in a reference.
-/
namespace Bronti.Syntax

open Parse

/-- An expression in parentheses comes next. -/
def ParensNext (ts : List Token) : Prop :=
  ∃ e rest, Expr.WellFormed e ∧ ts = .mark .openParen :: (e.tokens ++ .mark .closeParen :: rest)

/-- What ends in a reference is not called by what comes next. -/
def Uncalled (ends : Bool) (c : Cursor) : Prop := ends = true → ¬ ParensNext c.tokens

/-- Whatever is read is not called by what comes next. -/
def ReadsUncalled (p : Parse Expr) : Prop :=
  ∀ {c e c'}, p c = .ok e c' → Uncalled e.endsInReference c'

theorem uncalled_false (c : Cursor) : Uncalled false c := by simp [Uncalled]

theorem Expr.WellFormed.parensNext {e : Expr} (h : e.WellFormed) (hb : e.beginsWithParen = true)
    (rest : List Token) : ParensNext (e.tokens ++ rest) := by
  induction h generalizing rest with
  | literal _ | reference _ | call _ _ => cases hb
  | @parens inner _ hi => exact ⟨inner, rest, hi, by simp [tokens]⟩
  | operation _ _ _ _ ihl _ =>
    rw [tokens, List.append_assoc]
    exact ihl hb _

theorem Stmt.WellFormed.parensNext {s : Stmt} (h : s.WellFormed) (hb : s.beginsWithParen = true)
    (rest : List Token) : ParensNext (s.tokens ++ rest) := by
  cases h with
  | expression h => exact h.parensNext hb rest
  | _ => cases hb

/-! ## Repeated readings -/

/-- Readings one after another. -/
inductive Row {α : Type} (p : Parse α) : Cursor → List α → Cursor → Prop
  | nil {c : Cursor} : Row p c [] c
  | cons {c d c' : Cursor} {a : α} {as : List α} (first : p c = .ok a d) (more : Row p d as c') :
      Row p c (a :: as) c'

section Rows

variable {α : Type} {p : Parse α} {c c' : Cursor} {as : List α}

theorem upTo_row {limit : Nat} (h : upTo p limit c = .ok as c') : Row p c as c' := by
  induction limit generalizing c as c' with
  | zero =>
    cases h
    exact .nil
  | succ limit ih =>
    unfold upTo at h
    split at h
    · next a d ha =>
      split at h
      · next bs e hb =>
        cases h
        exact .cons ha (ih hb)
      · cases h
      · cases h
    · cases h
      exact .nil
    · cases h

theorem many_row (h : many p c = .ok as c') : ∃ d, Row p c as d ∧ c'.tokens = d.tokens := by
  unfold many at h
  split at h
  · next d hd =>
    cases h
    exact ⟨d, upTo_row hd, rfl⟩
  · exact ⟨c', upTo_row h, rfl⟩

end Rows

/-! ## Expressions -/

section Expressions

variable {depth : Nat} {inner : Parse Expr} {c c' : Cursor} {e : Expr}

theorem call_ends (h : callWith inner c = .ok e c') : e.endsInReference = false := by
  obtain ⟨_, _, _, h⟩ := bind_ok h
  obtain ⟨_, _, _, h⟩ := bind_ok h
  obtain ⟨_, _, _, h⟩ := bind_ok h
  obtain ⟨_, _, _, h⟩ := bind_ok h
  obtain ⟨_, _, _, h⟩ := bind_ok h
  obtain ⟨rfl, -⟩ := pure_ok h
  rfl

theorem parens_ends (h : parensWith inner c = .ok e c') : e.endsInReference = false := by
  obtain ⟨_, _, _, h⟩ := bind_ok h
  obtain ⟨_, _, _, h⟩ := bind_ok h
  obtain ⟨_, _, _, h⟩ := bind_ok h
  obtain ⟨_, _, _, h⟩ := bind_ok h
  obtain ⟨rfl, -⟩ := pure_ok h
  rfl

theorem reference_tokens (h : reference c = .ok e c') : ∃ s, c.tokens = .name s :: c'.tokens := by
  obtain ⟨_, _, hpos, h⟩ := bind_ok h
  rw [here_ok hpos] at h
  obtain ⟨s, _, hname, h⟩ := bind_ok h
  obtain ⟨-, rfl⟩ := pure_ok h
  exact ⟨s, (name_ok hname).tokens⟩

/-- Where an expression in parentheses stands behind a name, a call is read, if the nesting is not
too deep. -/
theorem call_or_tooDeep (hi : Completes True depth 0 inner) (hn : StopsAtParen True depth inner)
    {s : String} {ts : List Token} (hc : c.tokens = .name s :: ts) (hts : ParensNext ts)
    (f : Failure) : callWith inner c ≠ .failed f := by
  obtain ⟨d, rest, hd, rfl⟩ := hts
  have hcall : c.tokens = (Expr.call s [d] .start).tokens ++ rest := by
    simp [hc, Expr.tokens, Expr.tokensOfEach, commaSeparated]
  have hpass := call_passes hi hn (by simpa using hd) (fun _ => trivial) hcall
  rcases hpass with ⟨a, c₁, ha, -⟩ | ⟨-, ht⟩
  · simp [ha]
  · simp [ht]

theorem atom_uncalled (hi : Completes True depth 0 inner) (hn : StopsAtParen True depth inner) :
    ReadsUncalled (atomWith inner) := by
  intro c e c' h
  unfold atomWith at h
  split at h
  · unfold orElse at h
    split at h
    -- the call that was tried first has failed, so none stands there
    · next f hf =>
      obtain ⟨s, hs⟩ := reference_tokens h
      exact fun _ hnext => call_or_tooDeep hi hn hs hnext f hf
    · rw [call_ends h]
      exact uncalled_false c'
  · cases h
    exact uncalled_false _
  · rw [parens_ends h]
    exact uncalled_false c'
  · cases h

/-- Operations are as uncalled as the last of their operands. -/
theorem folded_uncalled {l : Operator.Level} {operand : Parse Expr} (ho : ReadsUncalled operand)
    {rest : List (Operator × Expr)} (h : Row (operationWith l operand) c rest c') {first : Expr}
    (hf : Uncalled first.endsInReference c) : Uncalled (folded first rest).endsInReference c' := by
  induction h generalizing first with
  | nil => exact hf
  | cons hr _ ih =>
    obtain ⟨op, _, _, hr⟩ := bind_ok hr
    obtain ⟨right, _, hright, hr⟩ := bind_ok hr
    obtain ⟨rfl, rfl⟩ := pure_ok hr
    have hlast := ho hright
    have hnext : Uncalled (Expr.operation first op right).endsInReference _ := hlast
    exact ih hnext

theorem level_uncalled (l : Operator.Level) {operand : Parse Expr} (ho : ReadsUncalled operand) :
    ReadsUncalled (levelWith l operand) := by
  intro c e c' h
  obtain ⟨first, c₁, hfirst, h⟩ := bind_ok h
  obtain ⟨rest, c₂, hrest, h⟩ := bind_ok h
  obtain ⟨rfl, rfl⟩ := pure_ok h
  obtain ⟨d, hrow, htokens⟩ := many_row hrest
  rw [Uncalled, htokens]
  exact folded_uncalled ho hrow (ho hfirst)

theorem expression_uncalled (depth : Nat) : ReadsUncalled (expression depth) := by
  cases depth with
  | zero =>
    intro c e c' h
    cases h
  | succ depth =>
    exact level_uncalled .disjunction <| level_uncalled .conjunction <|
      level_uncalled .comparison <| level_uncalled .sum <| level_uncalled .product <|
        atom_uncalled (expression_completes depth) (expression_stops depth)

end Expressions

/-! ## Statements -/

/-- Whatever is read is parted inside and not called by what comes next. -/
def ReadsApart (p : Parse Stmt) : Prop :=
  ∀ {c s c'}, c.Proper → p c = .ok s c' → s.Apart ∧ Uncalled s.endsInReference c'

section Statements

variable {expression : Parse Expr} {statement : Parse Stmt} {c c' : Cursor}

/-- Statements that are read one after another are parted. -/
theorem row_parted (hs : Sound statement Stmt.tokens Stmt.WellFormed) (ha : ReadsApart statement)
    {ss : List Stmt} (h : Row statement c ss c') (hc : c.Proper) :
    ss.IsChain Stmt.Parted ∧ ∀ s ∈ ss, s.Apart := by
  induction h with
  | nil => exact ⟨.nil, by simp⟩
  | @cons c d c' s ss first more ih =>
    obtain ⟨hpass, -⟩ := hs first
    obtain ⟨hinner, huncalled⟩ := ha hc first
    obtain ⟨hchain, hall⟩ := ih (hpass.proper hc)
    refine ⟨List.isChain_cons.mpr ⟨fun t ht => ?_, hchain⟩, by simpa using ⟨hinner, hall⟩⟩
    rintro ⟨hends, hbegins⟩
    cases more with
    | nil => cases ht
    | cons next _ =>
      obtain rfl := Option.some.inj ht
      obtain ⟨hnext, hgood⟩ := hs next
      have hparens := (hgood (hpass.proper hc)).parensNext hbegins
      exact huncalled hends (hnext.tokens ▸ hparens _)

theorem many_parted (hs : Sound statement Stmt.tokens Stmt.WellFormed) (ha : ReadsApart statement)
    {ss : List Stmt} (h : many statement c = .ok ss c') (hc : c.Proper) :
    ss.IsChain Stmt.Parted ∧ ∀ s ∈ ss, s.Apart := by
  obtain ⟨d, hrow, -⟩ := many_row h
  exact row_parted hs ha hrow hc

theorem body_apart (hs : Sound statement Stmt.tokens Stmt.WellFormed) (ha : ReadsApart statement)
    {b : Body} (hc : c.Proper) (h : bodyWith statement c = .ok b c') : b.Apart := by
  obtain ⟨brace, _, hbrace, h⟩ := bind_ok h
  rw [start_ok hbrace] at h
  obtain ⟨_, c₁, hopen, h⟩ := bind_ok h
  obtain ⟨pos, _, hpos, h⟩ := bind_ok h
  rw [start_ok hpos] at h
  obtain ⟨_, c₂, hgap, h⟩ := bind_ok h
  obtain ⟨statements, c₃, hmany, h⟩ := bind_ok h
  obtain ⟨_, c₄, _, h⟩ := bind_ok h
  obtain ⟨rfl, -⟩ := pure_ok h
  have hpass := (mark_ok hopen).trans (readGap_ok hgap)
  obtain ⟨hchain, hall⟩ := many_parted hs ha hmany (hpass.proper hc)
  exact .braced hchain hall

theorem function_apart (hs : Sound statement Stmt.tokens Stmt.WellFormed)
    (ha : ReadsApart statement) : ReadsApart (functionWith statement) := by
  intro c s c' hc h
  obtain ⟨pos, _, hpos, h⟩ := bind_ok h
  rw [start_ok hpos] at h
  obtain ⟨_, c₁, hkey, h⟩ := bind_ok h
  obtain ⟨text, c₂, hname, h⟩ := bind_ok h
  obtain ⟨_, c₃, hopen, h⟩ := bind_ok h
  obtain ⟨params, c₄, hparams, h⟩ := bind_ok h
  obtain ⟨_, c₅, hclose, h⟩ := bind_ok h
  obtain ⟨body, c₆, hbody, h⟩ := bind_ok h
  obtain ⟨rfl, rfl⟩ := pure_ok h
  have p₃ := ((keyword_ok hkey).trans (name_ok hname)).trans (mark_ok hopen)
  have p₅ := (p₃.trans (commaList_sound names_sound hparams).1).trans (mark_ok hclose)
  exact ⟨.function (body_apart hs ha (p₅.proper hc) hbody), uncalled_false _⟩

theorem proper_behind_condition (he : Sound expression Expr.tokens Expr.WellFormed) {k : Keyword}
    {d : Cursor} {e : Expr} {u : Unit} (hc : c.Proper) (hkey : keyword k c = .ok u d)
    (h : conditionWith expression d = .ok e c') : c'.Proper :=
  ((keyword_ok hkey).trans (condition_sound he h).1).proper hc

theorem loop_apart (he : Sound expression Expr.tokens Expr.WellFormed)
    (hs : Sound statement Stmt.tokens Stmt.WellFormed) (ha : ReadsApart statement) :
    ReadsApart (loopWith expression statement) := by
  intro c s c' hc h
  obtain ⟨pos, _, hpos, h⟩ := bind_ok h
  rw [start_ok hpos] at h
  obtain ⟨_, c₁, hkey, h⟩ := bind_ok h
  obtain ⟨condition, c₂, hcond, h⟩ := bind_ok h
  obtain ⟨body, c₃, hbody, h⟩ := bind_ok h
  obtain ⟨rfl, rfl⟩ := pure_ok h
  have hproper := proper_behind_condition he hc hkey hcond
  exact ⟨.loop (body_apart hs ha hproper hbody), uncalled_false _⟩

theorem branch_apart (he : Sound expression Expr.tokens Expr.WellFormed)
    (hs : Sound statement Stmt.tokens Stmt.WellFormed) (ha : ReadsApart statement) :
    ReadsApart (branchWith expression statement) := by
  intro c s c' hc h
  obtain ⟨pos, _, hpos, h⟩ := bind_ok h
  rw [start_ok hpos] at h
  obtain ⟨_, c₁, hkey, h⟩ := bind_ok h
  obtain ⟨condition, c₂, hcond, h⟩ := bind_ok h
  obtain ⟨positive, c₃, hpositive, h⟩ := bind_ok h
  obtain ⟨negative, c₄, hnegative, h⟩ := bind_ok h
  obtain ⟨rfl, rfl⟩ := pure_ok h
  have hproper := proper_behind_condition he hc hkey hcond
  refine ⟨.branch (body_apart hs ha hproper hpositive) (fun b hb => ?_), uncalled_false _⟩
  rcases optional_ok hnegative with ⟨b', rfl, hb'⟩ | ⟨rfl, -⟩
  · obtain rfl := Option.some.inj hb
    obtain ⟨_, d, helse, hb'⟩ := bind_ok hb'
    have hpass := (body_sound hs hpositive).1.trans (keyword_ok helse)
    exact body_apart hs ha (hpass.proper hproper) hb'
  · cases hb

theorem declaration_apart (hu : ReadsUncalled expression) :
    ReadsApart (declarationWith expression) := by
  intro c s c' _ h
  obtain ⟨_, _, _, h⟩ := bind_ok h
  obtain ⟨_, _, _, h⟩ := bind_ok h
  obtain ⟨_, _, _, h⟩ := bind_ok h
  obtain ⟨initializer, _, hinit, h⟩ := bind_ok h
  obtain ⟨rfl, rfl⟩ := pure_ok h
  refine ⟨.declaration, ?_⟩
  rcases optional_ok hinit with ⟨e, rfl, he⟩ | ⟨rfl, -⟩
  · obtain ⟨_, _, _, he⟩ := bind_ok he
    exact hu he
  · exact uncalled_false _

theorem statementWith_apart (he : Sound expression Expr.tokens Expr.WellFormed)
    (hu : ReadsUncalled expression) (hs : Sound statement Stmt.tokens Stmt.WellFormed)
    (ha : ReadsApart statement) : ReadsApart (statementWith expression statement) := by
  intro c s c' hc h
  unfold statementWith at h
  split at h
  · exact function_apart hs ha hc h
  · exact declaration_apart hu hc h
  · exact loop_apart he hs ha hc h
  · exact branch_apart he hs ha hc h
  · obtain ⟨_, _, _, h⟩ := bind_ok h
    obtain ⟨_, _, _, h⟩ := bind_ok h
    obtain ⟨value, _, hvalue, h⟩ := bind_ok h
    obtain ⟨rfl, rfl⟩ := pure_ok h
    exact ⟨.result, hu hvalue⟩
  · rcases orElse_ok h with h | h
    · obtain ⟨_, _, _, h⟩ := bind_ok h
      obtain ⟨_, _, _, h⟩ := bind_ok h
      obtain ⟨_, _, _, h⟩ := bind_ok h
      obtain ⟨value, _, hvalue, h⟩ := bind_ok h
      obtain ⟨rfl, rfl⟩ := pure_ok h
      exact ⟨.assignment, hu hvalue⟩
    · obtain ⟨_, _, _, h⟩ := bind_ok h
      obtain ⟨value, _, hvalue, h⟩ := bind_ok h
      obtain ⟨rfl, rfl⟩ := pure_ok h
      exact ⟨.expression, hu hvalue⟩

end Statements

theorem statement_apart (depth : Nat) : ReadsApart (statement depth) := by
  induction depth with
  | zero =>
    intro c s c' _ h
    cases h
  | succ depth ih =>
    exact statementWith_apart (expression_sound depth) (expression_uncalled depth)
      (statement_sound depth) ih

/-- A program that is read has its statements parted. -/
theorem program_apart (depth : Nat) {c c' : Cursor} {p : Program} (hc : c.Proper)
    (h : program depth c = .ok p c') : p.Apart := by
  obtain ⟨pos, _, hpos, h⟩ := bind_ok h
  rw [start_ok hpos] at h
  obtain ⟨_, c₁, hgap, h⟩ := bind_ok h
  obtain ⟨statements, c₂, hmany, h⟩ := bind_ok h
  obtain ⟨_, _, _, h⟩ := bind_ok h
  obtain ⟨rfl, -⟩ := pure_ok h
  exact many_parted (statement_sound depth) (statement_apart depth) hmany
    ((readGap_ok hgap).proper hc)

theorem readProgram_apart {text : String} {p : Program} (h : readProgram text = .ok p) :
    p.Apart := by
  obtain ⟨c', hp⟩ := readProgram_ok h
  obtain ⟨-, hstray, -⟩ := program_sound maxDepth hp
  exact program_apart maxDepth (ofText_proper hstray) hp

end Bronti.Syntax
