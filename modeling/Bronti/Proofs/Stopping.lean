import Bronti.Proofs.Placement

/-!
Where readings stop. A repeated reading stops where the reading it repeats fails; what is read is
nested no deeper than it may be; and where a statement stands, whatever follows it, the reading of a
statement does not fail.
-/
namespace Bronti.Syntax

open Parse

/-! ## Repeated readings -/

section Rows

variable {α : Type} {p : Parse α} {c c' : Cursor} {as : List α}

/-- Every success of the reading takes a token at least. -/
def Consumes (p : Parse α) : Prop :=
  ∀ {c a c'}, p c = .ok a c' → c'.lexemes.length < c.lexemes.length

theorem Consumes.of_sound {write : α → List Token} {good : α → Prop} (hp : Sound p write good)
    (hne : ∀ a, write a ≠ []) : Consumes p := by
  intro c a c' h
  have hlength := congrArg List.length (hp h).1.tokens
  have hpos := List.length_pos_iff.mpr (hne a)
  simp only [Cursor.tokens, List.length_append, List.length_map] at hlength
  omega

theorem upTo_stops (hp : Consumes p) {limit : Nat} (h : upTo p limit c = .ok as c')
    (hl : c.lexemes.length ≤ limit) : (∃ f, p c' = .failed f) ∨ c'.lexemes = [] := by
  induction limit generalizing c as with
  | zero =>
    cases h
    exact .inr (List.length_eq_zero_iff.mp (Nat.le_zero.mp hl))
  | succ limit ih =>
    unfold upTo at h
    split at h
    · next a d ha =>
      split at h
      · next bs e hb =>
        cases h
        have hshort := hp ha
        exact ih hb (by omega)
      · cases h
      · cases h
    · next f hf =>
      cases h
      exact .inl ⟨f, hf⟩
    · cases h

/-- Readings one after another, up to where no further one succeeds. -/
theorem many_stops (hp : Consumes p) (h : many p c = .ok as c') :
    ∃ d, Row p c as d ∧ (c' = if as.isEmpty then d.readGap else d) ∧
      ((∃ f, p d = .failed f) ∨ d.lexemes = []) := by
  obtain ⟨d, hd, hc⟩ := many_upTo h
  exact ⟨d, upTo_row hd, hc, upTo_stops hp hd (Nat.le_refl _)⟩

/-- Whatever is read is good. -/
def Results (p : Parse α) (good : α → Prop) : Prop := ∀ {c a c'}, p c = .ok a c' → good a

variable {good : α → Prop}

theorem row_results (hp : Results p good) (h : Row p c as c') : ∀ a ∈ as, good a := by
  induction h with
  | nil => simp
  | cons first _ ih => exact List.forall_mem_cons.mpr ⟨hp first, ih⟩

theorem many_results (hp : Results p good) : Results (many p) (fun as => ∀ a ∈ as, good a) := by
  intro c as c' h
  obtain ⟨d, hrow, -⟩ := many_row_gap h
  exact row_results hp hrow

theorem after_results {lead : Parse Unit} (hp : Results p good) :
    Results (do lead; p) good := by
  intro c a c' h
  obtain ⟨_, d, -, ha⟩ := bind_ok h
  exact hp ha

theorem commaList_results (hp : Results p good) :
    Results (commaList p) (fun as => ∀ a ∈ as, good a) := by
  intro c as c' h
  obtain ⟨_, d, -, h⟩ := bind_ok h
  obtain ⟨first, e, he, h⟩ := bind_ok h
  rcases optional_cases he with ⟨a, rfl, ha⟩ | ⟨rfl, -⟩
  · obtain ⟨rest, f, hf, h⟩ := bind_ok h
    obtain ⟨rfl, -⟩ := pure_ok h
    exact List.forall_mem_cons.mpr ⟨hp ha, many_results (after_results hp) hf⟩
  · obtain ⟨rfl, -⟩ := pure_ok h
    simp

end Rows

/-! ## Nesting -/

theorem Expr.depthOfEach_le {es : List Expr} {n : Nat} (h : ∀ e ∈ es, e.depth ≤ n) :
    depthOfEach es ≤ n := by
  induction es with
  | nil => exact Nat.zero_le n
  | cons e es ih =>
    obtain ⟨he, hes⟩ := List.forall_mem_cons.mp h
    exact Nat.max_le.mpr ⟨he, ih hes⟩

theorem Stmt.depthOfEach_le {ss : List Stmt} {n : Nat} (h : ∀ s ∈ ss, s.depth ≤ n) :
    depthOfEach ss ≤ n := by
  induction ss with
  | nil => exact Nat.zero_le n
  | cons s ss ih =>
    obtain ⟨hs, hss⟩ := List.forall_mem_cons.mp h
    exact Nat.max_le.mpr ⟨hs, ih hss⟩

theorem commaList_tooDeep {α : Type} {p : Parse α} (hp : ∀ c, p c = .tooDeep) (c : Cursor) :
    commaList p c = .tooDeep := by
  have hgap : readGap c = .ok () c.readGap := rfl
  have hfirst : Parse.optional p c.readGap = .tooDeep := by simp [Parse.optional, hp]
  exact (bind_of_ok hgap).trans (bind_of_tooDeep hfirst)

theorem atom_depth {depth : Nat} (hi : Results (expression depth) (fun e => e.depth ≤ depth)) :
    Results (atomWith (expression depth)) (fun e => e.depth ≤ depth + 1) := by
  intro c e c' h
  unfold atomWith at h
  split at h
  · rcases orElse_ok h with h | h
    · obtain ⟨pos, _, hpos, h⟩ := bind_ok h
      obtain ⟨callee, c₁, hname, h⟩ := bind_ok h
      obtain ⟨_, c₂, hopen, h⟩ := bind_ok h
      obtain ⟨args, c₃, hargs, h⟩ := bind_ok h
      obtain ⟨_, c₄, hclose, h⟩ := bind_ok h
      obtain ⟨rfl, -⟩ := pure_ok h
      have heach := Expr.depthOfEach_le (commaList_results hi hargs)
      -- even an empty list of arguments was looked for one level further in
      have hpos : 1 ≤ depth := by
        cases depth with
        | zero =>
          rw [commaList_tooDeep (p := expression 0) fun _ => rfl] at hargs
          cases hargs
        | succ depth => exact Nat.le_add_left 1 depth
      simp only [Expr.depth]
      omega
    · obtain ⟨pos, _, hpos, h⟩ := bind_ok h
      obtain ⟨name, c₁, hname, h⟩ := bind_ok h
      obtain ⟨rfl, -⟩ := pure_ok h
      exact Nat.le_add_left 1 depth
  · cases h
    exact Nat.le_add_left 1 depth
  · obtain ⟨pos, _, hpos, h⟩ := bind_ok h
    obtain ⟨_, c₁, hopen, h⟩ := bind_ok h
    obtain ⟨e, c₂, he, h⟩ := bind_ok h
    obtain ⟨_, c₃, hclose, h⟩ := bind_ok h
    obtain ⟨rfl, -⟩ := pure_ok h
    have hinner := hi he
    simp only [Expr.depth]
    omega
  · cases h

theorem folded_depth {n : Nat} {rest : List (Operator × Expr)} (hr : ∀ r ∈ rest, r.2.depth ≤ n)
    {first : Expr} (hf : first.depth ≤ n) : (folded first rest).depth ≤ n := by
  induction rest generalizing first with
  | nil => exact hf
  | cons r rest ih =>
    obtain ⟨hfirst, hrest⟩ := List.forall_mem_cons.mp hr
    exact ih hrest (Nat.max_le.mpr ⟨hf, hfirst⟩)

theorem level_depth {n : Nat} (l : Operator.Level) {operand : Parse Expr}
    (ho : Results operand (fun e => e.depth ≤ n)) :
    Results (levelWith l operand) (fun e => e.depth ≤ n) := by
  have hmore : Results (operationWith l operand) (fun r => r.2.depth ≤ n) := by
    intro c r c' h
    obtain ⟨op, c₁, -, h⟩ := bind_ok h
    obtain ⟨right, c₂, hright, h⟩ := bind_ok h
    obtain ⟨rfl, -⟩ := pure_ok h
    exact ho hright
  intro c e c' h
  obtain ⟨first, c₁, hfirst, h⟩ := bind_ok h
  obtain ⟨rest, c₂, hrest, h⟩ := bind_ok h
  obtain ⟨rfl, -⟩ := pure_ok h
  exact folded_depth (many_results hmore hrest) (ho hfirst)

/-- An expression that is read is nested no deeper than it may be. -/
theorem expression_depth (depth : Nat) : Results (expression depth) (fun e => e.depth ≤ depth) := by
  induction depth with
  | zero =>
    intro c e c' h
    cases h
  | succ depth ih =>
    exact level_depth .disjunction <| level_depth .conjunction <| level_depth .comparison <|
      level_depth .sum <| level_depth .product <| atom_depth ih

theorem statement_consumes (depth : Nat) : Consumes (statement depth) :=
  Consumes.of_sound (statement_sound depth) Stmt.tokens_ne_nil

/-- A statement fails before a closing brace only where it may be nested two levels deep. -/
theorem two_le_of_failed {depth : Nat} {c : Cursor} (hc : c.token? = some (.mark .closeBrace))
    {f : Failure} (h : statement depth c = .failed f) : 2 ≤ depth := by
  match depth with
  | 0 => cases h
  | 1 =>
    have hname : ∃ f, name c = .failed f := ⟨⟨.construct, c.start⟩, by simp [name, hc]⟩
    obtain ⟨g, hg⟩ := hname
    have hhere : here c = .ok c.here c := rfl
    have hassign : assignmentWith (expression 0) c = .failed g :=
      (bind_of_ok hhere).trans (bind_of_failed hg)
    have hdeep : statement 1 c = .tooDeep := by
      simp only [statement, statementWith, hc, orElse, hassign]
      rfl
    rw [hdeep] at h
    cases h
  | depth + 2 => exact Nat.le_add_left 2 depth

theorem body_depth {depth : Nat} (hs : Results (statement depth) (fun s => s.depth ≤ depth)) :
    Results (bodyWith (statement depth)) (fun b => b.depth ≤ depth) := by
  intro c b c' h
  obtain ⟨brace, _, hbrace, h⟩ := bind_ok h
  obtain ⟨_, c₁, hopen, h⟩ := bind_ok h
  obtain ⟨pos, _, hpos, h⟩ := bind_ok h
  obtain ⟨_, c₂, hgap, h⟩ := bind_ok h
  obtain ⟨statements, c₃, hmany, h⟩ := bind_ok h
  obtain ⟨_, c₄, hclose, h⟩ := bind_ok h
  obtain ⟨rfl, -⟩ := pure_ok h
  have heach := Stmt.depthOfEach_le (many_results hs hmany)
  obtain ⟨d, -, rfl, hstop⟩ := many_stops (statement_consumes depth) hmany
  have hbrace : d.token? = some (.mark .closeBrace) := by
    have htoken := (mark_takes hclose).token
    cases hempty : statements.isEmpty <;> simp only [hempty] at htoken <;> exact htoken
  have htwo : 2 ≤ depth := by
    rcases hstop with ⟨f, hf⟩ | hnil
    · exact two_le_of_failed hbrace hf
    · simp [Cursor.token?, hnil] at hbrace
  exact Nat.max_le.mpr ⟨htwo, heach⟩

section Statements

variable {depth : Nat} {inner : Parse Expr}

theorem function_depth (hs : Results (statement depth) (fun s => s.depth ≤ depth)) :
    Results (functionWith (statement depth)) (fun s => s.depth ≤ depth + 1) := by
  intro c s c' h
  obtain ⟨pos, _, -, h⟩ := bind_ok h
  obtain ⟨_, _, -, h⟩ := bind_ok h
  obtain ⟨name, _, -, h⟩ := bind_ok h
  obtain ⟨_, _, -, h⟩ := bind_ok h
  obtain ⟨params, _, -, h⟩ := bind_ok h
  obtain ⟨_, _, -, h⟩ := bind_ok h
  obtain ⟨body, _, hbody, h⟩ := bind_ok h
  obtain ⟨rfl, -⟩ := pure_ok h
  have hle := body_depth hs hbody
  simp only [Stmt.depth]
  omega

theorem declaration_depth (he : Results inner (fun e => e.depth ≤ depth)) :
    Results (declarationWith inner) (fun s => s.depth ≤ depth + 1) := by
  intro c s c' h
  obtain ⟨pos, _, -, h⟩ := bind_ok h
  obtain ⟨_, _, -, h⟩ := bind_ok h
  obtain ⟨name, _, -, h⟩ := bind_ok h
  obtain ⟨initializer, _, hinitializer, h⟩ := bind_ok h
  obtain ⟨rfl, -⟩ := pure_ok h
  rcases optional_cases hinitializer with ⟨e, rfl, hvalue⟩ | ⟨rfl, -⟩
  · have hle := after_results he hvalue
    simp only [Stmt.depth]
    omega
  · exact Nat.le_add_left 1 depth

theorem condition_depth (he : Results inner (fun e => e.depth ≤ depth)) :
    Results (conditionWith inner) (fun e => e.depth ≤ depth) := by
  intro c e c' h
  obtain ⟨_, _, -, h⟩ := bind_ok h
  obtain ⟨condition, _, hcondition, h⟩ := bind_ok h
  obtain ⟨_, _, -, h⟩ := bind_ok h
  obtain ⟨rfl, -⟩ := pure_ok h
  exact he hcondition

theorem loop_depth (he : Results inner (fun e => e.depth ≤ depth))
    (hs : Results (statement depth) (fun s => s.depth ≤ depth)) :
    Results (loopWith inner (statement depth)) (fun s => s.depth ≤ depth + 1) := by
  intro c s c' h
  obtain ⟨pos, _, -, h⟩ := bind_ok h
  obtain ⟨_, _, -, h⟩ := bind_ok h
  obtain ⟨condition, _, hcondition, h⟩ := bind_ok h
  obtain ⟨body, _, hbody, h⟩ := bind_ok h
  obtain ⟨rfl, -⟩ := pure_ok h
  have hc := condition_depth he hcondition
  have hb := body_depth hs hbody
  simp only [Stmt.depth]
  omega

theorem branch_depth (he : Results inner (fun e => e.depth ≤ depth))
    (hs : Results (statement depth) (fun s => s.depth ≤ depth)) :
    Results (branchWith inner (statement depth)) (fun s => s.depth ≤ depth + 1) := by
  intro c s c' h
  obtain ⟨pos, _, -, h⟩ := bind_ok h
  obtain ⟨_, _, -, h⟩ := bind_ok h
  obtain ⟨condition, _, hcondition, h⟩ := bind_ok h
  obtain ⟨positive, _, hpositive, h⟩ := bind_ok h
  obtain ⟨negative, _, hnegative, h⟩ := bind_ok h
  obtain ⟨rfl, -⟩ := pure_ok h
  have hc := condition_depth he hcondition
  have hp := body_depth hs hpositive
  rcases optional_cases hnegative with ⟨body, rfl, hbody⟩ | ⟨rfl, -⟩
  · have hn := after_results (body_depth hs) hbody
    simp only [Stmt.depth]
    omega
  · simp only [Stmt.depth]
    omega

theorem result_depth (he : Results inner (fun e => e.depth ≤ depth)) :
    Results (resultWith inner) (fun s => s.depth ≤ depth + 1) := by
  intro c s c' h
  obtain ⟨pos, _, -, h⟩ := bind_ok h
  obtain ⟨_, _, -, h⟩ := bind_ok h
  obtain ⟨value, _, hvalue, h⟩ := bind_ok h
  obtain ⟨rfl, -⟩ := pure_ok h
  have hle := he hvalue
  simp only [Stmt.depth]
  omega

theorem assignment_depth (he : Results inner (fun e => e.depth ≤ depth)) :
    Results (assignmentWith inner) (fun s => s.depth ≤ depth + 1) := by
  intro c s c' h
  obtain ⟨pos, _, -, h⟩ := bind_ok h
  obtain ⟨name, _, -, h⟩ := bind_ok h
  obtain ⟨_, _, -, h⟩ := bind_ok h
  obtain ⟨value, _, hvalue, h⟩ := bind_ok h
  obtain ⟨rfl, -⟩ := pure_ok h
  have hle := he hvalue
  simp only [Stmt.depth]
  omega

theorem expressionStatement_depth (he : Results inner (fun e => e.depth ≤ depth)) :
    Results (expressionStatementWith inner) (fun s => s.depth ≤ depth + 1) := by
  intro c s c' h
  obtain ⟨pos, _, -, h⟩ := bind_ok h
  obtain ⟨value, _, hvalue, h⟩ := bind_ok h
  obtain ⟨rfl, -⟩ := pure_ok h
  have hle := he hvalue
  simp only [Stmt.depth]
  omega

end Statements

/-- A statement that is read is nested no deeper than it may be. -/
theorem statement_depth (depth : Nat) : Results (statement depth) (fun s => s.depth ≤ depth) := by
  induction depth with
  | zero =>
    intro c s c' h
    cases h
  | succ depth ih =>
    have hinner : Results (expression depth) (fun e => e.depth ≤ depth) := expression_depth depth
    intro c s c' h
    unfold statement statementWith at h
    split at h
    · exact function_depth ih h
    · exact declaration_depth hinner h
    · exact loop_depth hinner ih h
    · exact branch_depth hinner ih h
    · exact result_depth hinner h
    · rcases orElse_ok h with h | h
      · exact assignment_depth hinner h
      · exact expressionStatement_depth hinner h

/-! ## Readings that do not fail -/

/-- The reading does not fail here; it may find the nesting too deep. -/
def Proceeds {α : Type} (p : Parse α) (c : Cursor) : Prop := ∀ f, p c ≠ .failed f

section Proceeding

variable {α β : Type} {p : Parse α} {c : Cursor}

theorem Passes.proceeds {rest : List Token} {good : α → Prop}
    (h : Passes True p c rest good) : Proceeds p c := by
  intro f hf
  rcases h with ⟨a, c', ha, -⟩ | ⟨-, ht⟩
  · rw [ha] at hf
    cases hf
  · rw [ht] at hf
    cases hf

theorem Proceeds.bind {f : α → Parse β} (hp : Proceeds p c)
    (hf : ∀ a d, p c = .ok a d → Proceeds (f a) d) : Proceeds (p >>= f) c := by
  intro e h
  cases hc : p c with
  | ok a d =>
    rw [bind_of_ok hc] at h
    exact hf a d hc e h
  | failed g => exact hp g hc
  | tooDeep =>
    rw [bind_of_tooDeep hc] at h
    cases h

/-- Behind a reading that leaves just the tokens `rest`, the next one goes on. -/
theorem Passes.goes_on {rest : List Token} {good : α → Prop} {f : α → Parse β}
    (h : Passes True p c rest good) (hf : ∀ a d, d.tokens = rest → Proceeds (f a) d) :
    Proceeds (p >>= f) c := by
  rcases h with ⟨a, d, ha, hd, -⟩ | ⟨-, ht⟩
  · intro e he
    rw [bind_of_ok ha] at he
    exact hf a d hd e he
  · intro e he
    rw [bind_of_tooDeep ht] at he
    cases he

theorem pure_proceeds (a : α) (c : Cursor) : Proceeds (pure a : Parse α) c := by
  intro f hf
  cases hf

theorem optional_proceeds (p : Parse α) (c : Cursor) : Proceeds (Parse.optional p) c := by
  intro f hf
  unfold Parse.optional at hf
  split at hf <;> cases hf

theorem upTo_proceeds (p : Parse α) (limit : Nat) (c : Cursor) : Proceeds (upTo p limit) c := by
  induction limit generalizing c with
  | zero =>
    intro f hf
    cases hf
  | succ limit ih =>
    intro f hf
    unfold upTo at hf
    split at hf
    · next a d _ =>
      split at hf
      · cases hf
      · next g hg => exact ih d g hg
      · cases hf
    · cases hf
    · cases hf

theorem many_proceeds (p : Parse α) (c : Cursor) : Proceeds (many p) c := by
  intro f hf
  unfold many at hf
  split at hf
  · cases hf
  · exact upTo_proceeds p _ c f hf

theorem orElse_proceeds {q : Parse α} (hq : Proceeds q c) : Proceeds (orElse p q) c := by
  intro f hf
  unfold orElse at hf
  split at hf
  · exact hq f hf
  · next hne => exact hne f hf

end Proceeding

theorem level_proceeds (l : Operator.Level) {operand : Parse Expr} {c : Cursor}
    (ho : Proceeds operand c) : Proceeds (levelWith l operand) c :=
  ho.bind fun _ _ _ => (many_proceeds _ _).bind fun _ _ _ => pure_proceeds _ _

theorem reference_proceeds {c : Cursor} {s : String} (hc : c.token? = some (.name s)) :
    Proceeds reference c := by
  have hread : reference c = .ok (.reference s c.here) c.skip := by
    have hname : name c = .ok s c.skip := by simp [name, hc]
    exact bind_of_ok hname
  intro f hf
  rw [hread] at hf
  cases hf

/-- Where an expression stands, its first operand is read. -/
theorem atom_proceeds {depth : Nat} {e : Expr} (hw : e.WellFormed) {c : Cursor}
    {rest : List Token} (hc : c.tokens = e.tokens ++ rest) :
    Proceeds (atomWith (expression depth)) c := by
  induction hw generalizing rest with
  | @literal text pos h =>
    have ht : c.token? = some (.literal text) := token_of_tokens hc
    intro f hf
    simp [atomWith, ht] at hf
  | @reference s pos h | @call s args pos h =>
    have ht : c.token? = some (.name s) := token_of_tokens hc
    intro f hf
    simp only [atomWith, ht] at hf
    exact orElse_proceeds (reference_proceeds ht) f hf
  | @parens inner pos h =>
    have ht : c.token? = some (.mark .openParen) := token_of_tokens hc
    intro f hf
    simp only [atomWith, ht] at hf
    exact (parens_passes (expression_completes depth) h (fun _ => trivial) hc).proceeds f hf
  | @operation left right op _ _ _ _ ihl _ =>
    have hleft : c.tokens = left.tokens ++ (.operator op :: (right.tokens ++ rest)) := by
      simpa [Expr.tokens] using hc
    exact ihl hleft

theorem expression_proceeds (depth : Nat) {e : Expr} (hw : e.WellFormed) {c : Cursor}
    {rest : List Token} (hc : c.tokens = e.tokens ++ rest) : Proceeds (expression depth) c := by
  cases depth with
  | zero =>
    intro f hf
    cases hf
  | succ depth =>
    exact level_proceeds .disjunction <| level_proceeds .conjunction <|
      level_proceeds .comparison <| level_proceeds .sum <| level_proceeds .product <|
        atom_proceeds hw hc

theorem start_proceeds {α : Type} {f : Text.Position → Parse α} {c : Cursor}
    (hf : ∀ pos, Proceeds (f pos) c) : Proceeds (start >>= f) c := hf _

theorem here_proceeds {α : Type} {f : Text.Position → Parse α} {c : Cursor}
    (hf : ∀ pos, Proceeds (f pos) c) : Proceeds (here >>= f) c := hf _

theorem declaration_proceeds {expression : Parse Expr} {name : String} {initializer : Option Expr}
    {pos : Text.Position} {c : Cursor} {rest : List Token}
    (hc : c.tokens = (Stmt.declaration name initializer pos).tokens ++ rest) :
    Proceeds (declarationWith expression) c := by
  rw [Stmt.tokens_declaration] at hc
  refine start_proceeds fun _ => ?_
  refine (keyword_passes hc).goes_on fun _ c₁ h₁ => ?_
  refine (name_passes h₁).goes_on fun _ c₂ _ => ?_
  exact (optional_proceeds _ c₂).bind fun _ _ _ => pure_proceeds _ _

theorem branch_proceeds {depth : Nat} {condition : Expr} {positive : Body} {negative : Option Body}
    {pos : Text.Position} (hwc : condition.WellFormed) (hwp : positive.WellFormed)
    (hap : positive.Apart) {c : Cursor} {rest : List Token}
    (hc : c.tokens = (Stmt.branch condition positive negative pos).tokens ++ rest) :
    Proceeds (branchWith (expression depth) (statement depth)) c := by
  rw [Stmt.tokens_branch] at hc
  simp only [List.cons_append, List.append_assoc] at hc
  refine start_proceeds fun _ => ?_
  refine (keyword_passes hc).goes_on fun _ c₁ h₁ => ?_
  refine (condition_passes (expression_completes depth) hwc (fun _ => trivial) h₁).goes_on
    fun _ c₂ h₂ => ?_
  refine (body_passes (statement_completes depth) (fun hd _ hc => statement_refuses hd hc) hwp hap
    (fun _ => trivial) h₂).goes_on fun _ c₃ _ => ?_
  exact (optional_proceeds _ c₃).bind fun _ _ _ => pure_proceeds _ _

theorem result_proceeds {depth : Nat} {value : Expr} {pos : Text.Position} (hw : value.WellFormed)
    {c : Cursor} {rest : List Token} (hc : c.tokens = (Stmt.result value pos).tokens ++ rest) :
    Proceeds (resultWith (expression depth)) c := by
  refine start_proceeds fun _ => ?_
  refine (keyword_passes hc).goes_on fun _ c₁ h₁ => ?_
  exact (expression_proceeds depth hw h₁).bind fun _ _ _ => pure_proceeds _ _

/-- Where an expression stands, a statement is read, be it an assignment. -/
theorem assignmentOrExpression_proceeds {depth : Nat} {e : Expr} (hw : e.WellFormed) {c : Cursor}
    {rest : List Token} (hc : c.tokens = e.tokens ++ rest) :
    Proceeds (statement (depth + 1)) c := by
  have hkey : ∀ t ∈ c.tokens.head?, ∀ k, t ≠ .keyword k := by
    obtain ⟨t, ts, htokens, hopens, -⟩ := e.begins
    rw [hc, htokens]
    rintro u hu k rfl
    obtain rfl := Option.some.inj hu
    exact hopens
  have hvalue : Proceeds (expressionStatementWith (expression depth)) c :=
    here_proceeds fun _ => (expression_proceeds depth hw hc).bind fun _ _ _ => pure_proceeds _ _
  intro f hf
  rw [statement, statementWith_of_no_keyword hkey] at hf
  exact orElse_proceeds hvalue f hf

/-- Where a statement stands, whatever follows it, reading a statement does not fail. -/
theorem statement_proceeds (depth : Nat) {s : Stmt} (hw : s.WellFormed) (ha : s.Apart) {c : Cursor}
    {rest : List Token} (hc : c.tokens = s.tokens ++ rest) : Proceeds (statement depth) c := by
  cases depth with
  | zero =>
    intro f hf
    cases hf
  | succ depth =>
    have hstops : StopsAtBrace True depth (statement depth) := fun hd _ hc => statement_refuses hd hc
    cases hw with
    | @function name params body pos h hp hb =>
      have ht : c.token? = some (.keyword .function) := token_of_tokens hc
      cases ha with
      | function ha =>
        have hpass := function_passes (statement_completes depth) hstops hb ha (fun _ => trivial) hc
        intro f hf
        exact hpass.proceeds f (by simpa [statement, statementWith, ht] using hf)
    | @declaration name initializer pos h hi =>
      have ht : c.token? = some (.keyword .var) :=
        token_of_tokens (Stmt.tokens_declaration name initializer pos ▸ hc)
      intro f hf
      exact declaration_proceeds hc f (by simpa [statement, statementWith, ht] using hf)
    | @loop condition body pos hwc hwb =>
      have ht : c.token? = some (.keyword .loop) := token_of_tokens hc
      cases ha with
      | loop ha =>
        have hpass := loop_passes (expression_completes depth) (statement_completes depth) hstops
          hwc hwb ha (fun _ => trivial) hc
        intro f hf
        exact hpass.proceeds f (by simpa [statement, statementWith, ht] using hf)
    | @branch condition positive negative pos hwc hwp hwn =>
      have ht : c.token? = some (.keyword .branch) :=
        token_of_tokens (Stmt.tokens_branch condition positive negative pos ▸ hc)
      cases ha with
      | branch hap _ =>
        intro f hf
        exact branch_proceeds hwc hwp hap hc f (by simpa [statement, statementWith, ht] using hf)
    | @result value pos h =>
      have ht : c.token? = some (.keyword .result) := token_of_tokens hc
      intro f hf
      exact result_proceeds h hc f (by simpa [statement, statementWith, ht] using hf)
    | @assignment name value pos h hv =>
      -- the name by itself is an expression
      have href : c.tokens = (Expr.reference name pos).tokens ++
          (.mark .assign :: (value.tokens ++ rest)) := hc
      exact assignmentOrExpression_proceeds (.reference h) href
    | @expression value pos h => exact assignmentOrExpression_proceeds h hc

end Bronti.Syntax
