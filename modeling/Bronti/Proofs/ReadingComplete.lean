import Bronti.Proofs.Passing
import Bronti.Proofs.ReadingSound

/-!
Reading is complete: a text that writes the tokens of a program with separators between them is read
as this program, unless the program is nested too deep.
-/
namespace Bronti.Syntax

open Parse

/-! ## Expressions -/

/-- What follows an expression of a rank does not belong to it: no operator that binds as tightly as
the rank, and no parenthesis that would make a call of a reference. -/
def Expr.Leaves (r : Nat) (e : Expr) (rest : List Token) : Prop :=
  ∀ t ∈ rest.head?, (∀ o, t = .operator o → o.level.rank < r) ∧
    (e.endsInReference = true → t ≠ .mark .openParen)

/-- Every expression of a rank that is nested at most `depth` levels is read up to what does not
belong to it. -/
def Completes (deep : Prop) (depth r : Nat) (p : Parse Expr) : Prop :=
  ∀ (e : Expr) (c : Cursor) (rest : List Token), e.Within r → (depth < e.depth → deep) →
    e.Leaves r rest → c.tokens = e.tokens ++ rest →
    Passes deep p c rest (fun e' => e'.bare = e.bare)

/-- Where a list of arguments ends, no expression is read; to find this takes one level. -/
def StopsAtParen (deep : Prop) (depth : Nat) (p : Parse Expr) : Prop :=
  (depth = 0 → deep) → ∀ c ts, c.tokens = .mark .closeParen :: ts → Refuses deep p c

/-- A token with which an expression may begin. -/
def Token.Opens : Token → Prop
  | .name _ | .literal _ | .mark .openParen => True
  | _ => False

section Expressions

variable {deep : Prop} {depth : Nat} {inner : Parse Expr}

theorem Expr.leaves_list (e : Expr) {t : Token} (ht : t = .mark .comma ∨ t = .mark .closeParen)
    (more : List Token) : e.Leaves 0 (t :: more) := by
  intro u hu
  simp only [List.head?_cons, Option.mem_some_iff] at hu
  subst hu
  rcases ht with rfl | rfl <;> simp

theorem call_passes (hi : Completes deep depth 0 inner)
    (hn : StopsAtParen deep depth inner) {name : String} {args : List Expr} {pos : Text.Position}
    (hw : ∀ e ∈ args, e.WellFormed)
    (hd : depth + 1 < (Expr.call name args pos).depth → deep) {c : Cursor} {rest : List Token}
    (hc : c.tokens = (Expr.call name args pos).tokens ++ rest) :
    Passes deep (callWith inner) c rest (fun e' => e'.bare = (Expr.call name args pos).bare) := by
  simp only [Expr.depth] at hd
  simp only [Expr.tokens, Expr.tokens_of_each, List.cons_append, List.append_assoc,
    List.nil_append] at hc
  refine passes_here fun at' => ?_
  refine (name_passes hc).bind fun callee c₁ h₁ hcallee => ?_
  refine (mark_passes h₁).bind fun _ c₂ h₂ _ => ?_
  have hargs : Passes deep (commaList inner) c₂ (.mark .closeParen :: rest)
      (fun as => as.map Expr.bare = args.map Expr.bare) := by
    apply commaList_passes args ?_ ?_ c₂ h₂
    · intro e he d t more ht hs
      refine hi e d _ ⟨hw e he, Nat.zero_le _⟩ ?_ (e.leaves_list ht more) hs
      intro hlt
      have hle := Expr.depth_le_each he
      exact hd (by omega)
    · intro _ d hs
      exact hn (fun hz => hd (by omega)) d rest hs
  apply hargs.bind
  intro as c₃ h₃ has
  refine (mark_passes h₃).bind fun _ c₄ h₄ _ => ?_
  exact passes_pure h₄ (by simp [Expr.bare, Expr.bare_of_each, has, hcallee])

theorem parens_passes (hi : Completes deep depth 0 inner) {e : Expr} {pos : Text.Position}
    (hw : e.WellFormed) (hd : depth + 1 < (Expr.parens e pos).depth → deep) {c : Cursor}
    {rest : List Token} (hc : c.tokens = (Expr.parens e pos).tokens ++ rest) :
    Passes deep (parensWith inner) c rest (fun e' => e'.bare = (Expr.parens e pos).bare) := by
  simp only [Expr.depth] at hd
  simp only [Expr.tokens, List.cons_append, List.append_assoc, List.nil_append] at hc
  refine passes_start fun at' => ?_
  refine (mark_passes hc).bind fun _ c₁ h₁ _ => ?_
  have he : Passes deep inner c₁ (.mark .closeParen :: rest) (fun e' => e'.bare = e.bare) :=
    hi e c₁ _ ⟨hw, Nat.zero_le _⟩ (fun hlt => hd (by omega)) (e.leaves_list (.inr rfl) rest) h₁
  apply he.bind
  intro e' c₂ h₂ he'
  refine (mark_passes h₂).bind fun _ c₃ h₃ _ => ?_
  exact passes_pure h₃ (by simp [Expr.bare, he'])

theorem call_refuses {c : Cursor} {name : String} {rest : List Token}
    (hc : c.tokens = .name name :: rest) (ht : ∀ t ∈ rest.head?, t ≠ .mark .openParen) :
    ∃ f, callWith inner c = .failed f := by
  have hrefuse : Refuses False (callWith inner) c := by
    refine refuses_here fun pos => ?_
    refine (name_passes hc).refuse fun _ c₁ h₁ => ?_
    exact Refuses.bind (.inl (mark_refuses (by rwa [h₁])))
  exact hrefuse.failed

theorem rank_lt (l : Operator.Level) : l.rank < 5 := by
  cases l <;> decide

theorem atom_completes (hi : Completes deep depth 0 inner)
    (hn : StopsAtParen deep depth inner) :
    Completes deep (depth + 1) 5 (atomWith inner) := by
  intro e c rest he hd hl hc
  obtain ⟨hw, hr⟩ := he
  cases e with
  | literal text pos =>
    have ht : c.token? = some (.literal text) := token_of_tokens hc
    refine .inl ⟨.literal text c.start, c.skip, ?_, tokens_skip_of hc, rfl, rfl⟩
    simp [atomWith, ht]
  | reference text pos =>
    have ht : c.token? = some (.name text) := token_of_tokens hc
    have hopen : ∀ t ∈ rest.head?, t ≠ .mark .openParen := fun t hm => (hl t hm).2 rfl
    have hcall : orElse (callWith inner) reference c = reference c :=
      orElse_of_failed (call_refuses hc hopen)
    have href : Passes deep reference c rest (fun e' => e'.bare = .reference text .start) := by
      refine passes_here fun at' => ?_
      refine (name_passes hc).bind fun name c₁ h₁ hname => ?_
      exact passes_pure h₁ (by simp [Expr.bare, hname])
    exact href.of_eq (by simp [atomWith, ht, hcall])
  | call text args pos =>
    have ht : c.token? = some (.name text) := token_of_tokens hc
    cases hw with
    | call _ hargs =>
      have hcall : Passes deep (orElse (callWith inner) reference) c rest _ :=
        orElse_passes (call_passes hi hn hargs hd hc)
      exact hcall.of_eq (by simp [atomWith, ht])
  | parens e pos =>
    have ht : c.token? = some (.mark .openParen) := token_of_tokens hc
    cases hw with
    | parens hw => exact (parens_passes hi hw hd hc).of_eq (by simp [atomWith, ht])
  | operation left op right =>
    have hlt := rank_lt op.level
    simp only [Expr.rank] at hr
    omega

theorem atom_refuses {c : Cursor} (hc : ∀ t ∈ c.tokens.head?, ¬ t.Opens) :
    ∃ f, atomWith inner c = .failed f := by
  rw [← c.token_eq] at hc
  unfold atomWith
  split
  · next ht => exact absurd trivial (hc _ ht)
  · next ht => exact absurd trivial (hc _ ht)
  · next ht => exact absurd trivial (hc _ ht)
  · exact ⟨_, rfl⟩

/-! ### Levels of operators -/

theorem level_of_rank {l l' : Operator.Level} (h : l.rank = l'.rank) : l = l' := by
  cases l <;> cases l' <;> first | rfl | cases h

/-- An expression of a level is an operand that binds more tightly and operations of this level with
such operands behind it. -/
theorem spine (l : Operator.Level) {e : Expr} (hw : e.WellFormed) (hr : l.rank ≤ e.rank) :
    ∃ first rest, first.Within (l.rank + 1) ∧
      (∀ r ∈ rest, r.1.level = l ∧ r.2.Within (l.rank + 1)) ∧ e = folded first rest := by
  have htight : ∀ {e : Expr}, e.Within (l.rank + 1) → ∃ first rest, first.Within (l.rank + 1) ∧
      (∀ r ∈ rest, r.1.level = l ∧ r.2.Within (l.rank + 1)) ∧ e = folded first rest :=
    fun he => ⟨_, [], he, by simp, rfl⟩
  -- the spine of left operands ends where the level does
  induction hw with
  | literal h => exact htight ⟨.literal h, rank_lt l⟩
  | reference h => exact htight ⟨.reference h, rank_lt l⟩
  | call h inner => exact htight ⟨.call h inner, rank_lt l⟩
  | parens h => exact htight ⟨.parens h, rank_lt l⟩
  | @operation left right op hwl hwr loose tight ihl ihr =>
    simp only [Expr.rank] at hr
    rcases Nat.lt_or_eq_of_le hr with hlt | heq
    · exact htight ⟨.operation hwl hwr loose tight, hlt⟩
    · have hlevel : op.level = l := level_of_rank heq.symm
      obtain ⟨first, rest, hf, hrest, he⟩ := ihl (by omega)
      refine ⟨first, rest ++ [(op, right)], hf, ?_, ?_⟩
      · intro r hm
        rcases List.mem_append.mp hm with hm | hm
        · exact hrest r hm
        · rw [List.mem_singleton.mp hm]
          exact ⟨hlevel, hwr, hlevel ▸ tight⟩
      · rw [he]
        simp [folded]

/-- The operands of an expression are left by what follows them, if this leaves the whole. -/
theorem leaves_folded (l : Operator.Level) {out : List Token} (rest : List (Operator × Expr))
    (hr : ∀ r ∈ rest, r.1.level = l) (first : Expr) (hl : (folded first rest).Leaves l.rank out) :
    first.Leaves (l.rank + 1) (rest.flatMap operationTokens ++ out) ∧
      ∀ x post, x :: post <:+ rest →
        x.2.Leaves (l.rank + 1) (post.flatMap operationTokens ++ out) := by
  induction rest generalizing first with
  | nil =>
    refine ⟨?_, by simp⟩
    intro t ht
    obtain ⟨hop, hopen⟩ := hl t ht
    exact ⟨fun o ho => Nat.lt_succ_of_lt (hop o ho), hopen⟩
  | cons r rest ih =>
    obtain ⟨hlast, hmore⟩ := ih (fun q hq => hr q (by simp [hq])) _ hl
    refine ⟨?_, ?_⟩
    · intro t ht
      simp only [List.flatMap_cons, operationTokens, List.cons_append, List.head?_cons,
        Option.mem_some_iff] at ht
      subst ht
      refine ⟨?_, by simp⟩
      intro o ho
      cases ho
      rw [hr r (by simp)]
      exact Nat.lt_succ_self _
    · intro x post hx
      rcases List.suffix_cons_iff.mp hx with heq | hx
      · obtain ⟨rfl, rfl⟩ := List.cons.inj heq
        exact hlast
      · exact hmore x post hx

theorem depth_folded (rest : List (Operator × Expr)) (first : Expr) :
    first.depth ≤ (folded first rest).depth ∧
      ∀ r ∈ rest, r.2.depth ≤ (folded first rest).depth := by
  induction rest generalizing first with
  | nil => exact ⟨Nat.le_refl _, by simp⟩
  | cons r rest ih =>
    obtain ⟨hfirst, hrest⟩ := ih (.operation first r.1 r.2)
    simp only [Expr.depth] at hfirst
    refine ⟨Nat.le_trans (Nat.le_max_left _ _) hfirst, ?_⟩
    intro q hq
    rcases List.mem_cons.mp hq with rfl | hq
    · exact Nat.le_trans (Nat.le_max_right _ _) hfirst
    · exact hrest q hq

/-- An operator and its right operand without its places. -/
def bareOperation (r : Operator × Expr) : Operator × Expr := (r.1, r.2.bare)

theorem bare_folded (rest : List (Operator × Expr)) (first : Expr) :
    (folded first rest).bare = folded first.bare (rest.map bareOperation) := by
  induction rest generalizing first with
  | nil => rfl
  | cons r rest ih => exact ih (.operation first r.1 r.2)

theorem level_completes (l : Operator.Level) {operand : Parse Expr}
    (ho : Completes deep depth (l.rank + 1) operand) :
    Completes deep depth l.rank (levelWith l operand) := by
  intro e c out he hd hl hc
  obtain ⟨first, rest, hf, hr, rfl⟩ := spine l he.1 he.2
  obtain ⟨hfirst, hrest⟩ := leaves_folded l rest (fun r hm => (hr r hm).1) first hl
  obtain ⟨hdfirst, hdrest⟩ := depth_folded rest first
  have hs : c.tokens = first.tokens ++ (rest.flatMap operationTokens ++ out) := by
    rw [hc, tokens_folded, List.append_assoc]
  refine (ho first c _ hf (fun hlt => hd (by omega)) hfirst hs).bind fun first' c₁ h₁ hbare => ?_
  have hmany : Passes deep (many (operationWith l operand)) c₁ out
      (fun rs => rs.map bareOperation = rest.map bareOperation) := by
    apply many_passes ?_ rest ?_ (by simp [operationTokens]) c₁ h₁
    -- an operator of the level behind the expression would leave it unfinished
    · intro d ht
      apply Refuses.bind (.inl (operator_refuses ?_))
      rw [ht]
      intro t hm o ho heq
      have hlt := (hl t hm).1 o ho
      rw [heq] at hlt
      exact Nat.lt_irrefl _ hlt
    · intro x post hx d ht
      have hmem : x ∈ rest := hx.subset (by simp)
      obtain ⟨hlevel, hw⟩ := hr x hmem
      have hop : Passes deep (operator l) d _ (fun o => o = x.1) := hlevel ▸ operator_passes ht
      apply hop.bind
      intro o e he hox
      have hdeep : depth < x.2.depth → deep :=
        fun hlt => hd (Nat.lt_of_lt_of_le hlt (hdrest x hmem))
      refine (ho x.2 e _ hw hdeep (hrest x post hx) he).bind fun right f hf hright => ?_
      exact passes_pure hf (by simp [bareOperation, hox, hright])
  apply hmany.bind
  intro rest' c₂ h₂ hbares
  apply passes_pure h₂
  change (folded first' rest').bare = _
  rw [bare_folded, bare_folded, hbare, hbares]

theorem level_refuses (l : Operator.Level) {operand : Parse Expr} {c : Cursor}
    (h : ∃ f, operand c = .failed f) : ∃ f, levelWith l operand c = .failed f := by
  obtain ⟨f, hf⟩ := h
  exact ⟨f, bind_of_failed hf⟩

/-- Where no expression begins, none is read. -/
theorem expression_refuses {c : Cursor} (hc : ∀ t ∈ c.tokens.head?, ¬ t.Opens)
    (hd : depth = 0 → deep) : Refuses deep (expression depth) c := by
  cases depth with
  | zero => exact .inr ⟨hd rfl, rfl⟩
  | succ depth =>
    exact .inl <| level_refuses .disjunction <| level_refuses .conjunction <|
      level_refuses .comparison <| level_refuses .sum <| level_refuses .product <| atom_refuses hc

theorem expression_stops (depth : Nat) : StopsAtParen deep depth (expression depth) := by
  intro hd c ts hc
  exact expression_refuses (by simp [hc, Token.Opens]) hd

theorem expression_completes (depth : Nat) : Completes deep depth 0 (expression depth) := by
  induction depth with
  | zero =>
    intro e c rest _ hd _ _
    exact .inr ⟨hd e.depth_pos, rfl⟩
  | succ depth ih =>
    exact level_completes .disjunction <| level_completes .conjunction <|
      level_completes .comparison <| level_completes .sum <| level_completes .product <|
        atom_completes ih (expression_stops depth)

end Expressions

/-! ## Statements -/

/-- What follows a statement does not belong to it. -/
def Stmt.Leaves (s : Stmt) (rest : List Token) : Prop :=
  ∀ t ∈ rest.head?, (∀ o, t ≠ .operator o) ∧ t ≠ .mark .assign ∧ t ≠ .keyword .otherwise ∧
    (s.endsInReference = true → t ≠ .mark .openParen)

/-- Every statement that is nested at most `depth` levels is read up to what does not belong to
it. -/
def StmtCompletes (deep : Prop) (depth : Nat) (p : Parse Stmt) : Prop :=
  ∀ (s : Stmt) (c : Cursor) (rest : List Token), s.WellFormed → s.Apart →
    (depth < s.depth → deep) → s.Leaves rest → c.tokens = s.tokens ++ rest →
    Passes deep p c rest (fun s' => s'.bare = s.bare)

/-- Where a block ends, no statement is read; to find this takes two levels. -/
def StopsAtBrace (deep : Prop) (depth : Nat) (p : Parse Stmt) : Prop :=
  (depth < 2 → deep) →
    ∀ c, (∀ t ∈ c.tokens.head?, t = .mark .closeBrace) → Refuses deep p c

theorem Expr.begins (e : Expr) :
    ∃ t ts, e.tokens = t :: ts ∧ t.Opens ∧ (t = .mark .openParen → e.beginsWithParen = true) := by
  match e with
  | .literal _ _ | .reference _ _ | .call _ _ _ | .parens _ _ =>
    exact ⟨_, _, rfl, trivial, by simp [beginsWithParen]⟩
  | .operation left op right =>
    obtain ⟨t, ts, ht, hopens, hparen⟩ := left.begins
    exact ⟨t, ts ++ .operator op :: right.tokens, by simp [tokens, ht], hopens, hparen⟩

/-- Behind a name that begins an expression stands no assignment, if none stands behind the
expression. -/
theorem Expr.name_unassigned (e : Expr) {rest ts : List Token} {s : String}
    (hr : ∀ t ∈ rest.head?, t ≠ .mark .assign) (h : e.tokens ++ rest = .name s :: ts) :
    ∀ t ∈ ts.head?, t ≠ .mark .assign := by
  match e with
  | .literal _ _ | .parens _ _ => simp [tokens] at h
  | .reference _ _ =>
    simp only [tokens, List.cons_append, List.nil_append, List.cons.injEq] at h
    exact h.2 ▸ hr
  | .call _ _ _ =>
    simp only [tokens, List.cons_append, List.cons.injEq] at h
    simp [← h.2]
  | .operation left op right =>
    have hleft : left.tokens ++ (.operator op :: (right.tokens ++ rest)) = .name s :: ts := by
      simpa [tokens] using h
    exact left.name_unassigned (by simp) hleft

theorem Stmt.begins (s : Stmt) :
    ∃ t ts, s.tokens = t :: ts ∧ (∀ o, t ≠ .operator o) ∧ t ≠ .mark .assign ∧
      t ≠ .keyword .otherwise ∧ (t = .mark .openParen → s.beginsWithParen = true) := by
  cases s with
  | expression value pos =>
    obtain ⟨t, ts, ht, hopens, hparen⟩ := value.begins
    refine ⟨t, ts, ht, ?_, ?_, ?_, hparen⟩
    · rintro o rfl
      exact hopens
    · rintro rfl
      exact hopens
    · rintro rfl
      exact hopens
  | declaration name initializer pos =>
    cases initializer <;> exact ⟨_, _, rfl, by simp, by simp, by simp, by simp⟩
  | branch condition positive negative pos =>
    cases negative <;> exact ⟨_, _, rfl, by simp, by simp, by simp, by simp⟩
  | _ => exact ⟨_, _, rfl, by simp, by simp, by simp, by simp⟩

/-- What a statement is left by leaves its value, if this ends the statement. -/
theorem Stmt.Leaves.value {s : Stmt} {e : Expr} {rest : List Token} (hl : s.Leaves rest)
    (hends : e.endsInReference = true → s.endsInReference = true) : e.Leaves 0 rest := by
  intro t ht
  obtain ⟨hop, _, _, hparen⟩ := hl t ht
  exact ⟨fun o ho => absurd ho (hop o), fun h => hparen (hends h)⟩

/-- A statement is left by the next one that is parted from it. -/
theorem Stmt.Parted.leaves {s next : Stmt} (h : s.Parted next) (more : List Token) :
    s.Leaves (next.tokens ++ more) := by
  obtain ⟨t, ts, htokens, hop, hassign, hother, hparen⟩ := next.begins
  intro u hu
  simp only [htokens, List.cons_append, List.head?_cons, Option.mem_some_iff] at hu
  subst hu
  exact ⟨hop, hassign, hother, fun hends hopen => h ⟨hends, hparen hopen⟩⟩

/-- A statement is left by the end of its block. -/
theorem Stmt.leaves_end (s : Stmt) {rest : List Token}
    (hr : ∀ t ∈ rest.head?, t = .mark .closeBrace) : s.Leaves rest := by
  intro t ht
  rw [hr t ht]
  simp

section Statements

variable {deep : Prop} {depth : Nat} {expression : Parse Expr} {statement : Parse Stmt}

/-- The statements of a block are read up to what ends the block. -/
theorem statements_pass (hs : StmtCompletes deep depth statement)
    (hn : ∀ c, (∀ t ∈ c.tokens.head?, t = .mark .closeBrace) → Refuses deep statement c)
    {ss : List Stmt} (hw : ∀ s ∈ ss, s.WellFormed) (ha : ∀ s ∈ ss, s.Apart)
    (hp : ss.IsChain Stmt.Parted) (hd : depth < Stmt.depthOfEach ss → deep) {c : Cursor}
    {rest : List Token} (hr : ∀ t ∈ rest.head?, t = .mark .closeBrace)
    (hc : c.tokens = Stmt.tokensOfAll ss ++ rest) :
    Passes deep (many statement) c rest (fun ss' => ss'.map Stmt.bare = ss.map Stmt.bare) := by
  rw [Stmt.tokens_of_all] at hc
  apply many_passes (fun c hc => hn c (hc ▸ hr)) ss ?_ ?_ c hc
  · intro s post hpost d ht
    have hmem : s ∈ ss := hpost.subset (by simp)
    have hdeep : depth < s.depth → deep :=
      fun hlt => hd (Nat.lt_of_lt_of_le hlt (Stmt.depth_le_each hmem))
    refine hs s d _ (hw s hmem) (ha s hmem) hdeep ?_ ht
    cases post with
    | nil => exact s.leaves_end hr
    | cons next post =>
      have hchain := hp.suffix hpost
      simp only [List.isChain_cons_cons] at hchain
      simpa using hchain.1.leaves (post.flatMap Stmt.tokens ++ rest)
  · intro s _
    obtain ⟨t, ts, ht, _⟩ := s.begins
    simp [ht]

theorem body_passes (hs : StmtCompletes deep depth statement)
    (hn : StopsAtBrace deep depth statement) {b : Body} (hw : b.WellFormed) (ha : b.Apart)
    (hd : depth < b.depth → deep) {c : Cursor} {rest : List Token}
    (hc : c.tokens = b.tokens ++ rest) :
    Passes deep (bodyWith statement) c rest (fun b' => b'.bare = b.bare) := by
  cases b with
  | braced brace pos ss =>
    cases hw with
    | braced hw =>
      cases ha with
      | braced hp ha =>
        simp only [Body.depth] at hd
        simp only [Body.tokens, List.cons_append, List.append_assoc, List.nil_append] at hc
        refine passes_start fun _ => ?_
        refine (mark_passes hc).bind fun _ c₁ h₁ _ => ?_
        refine passes_start fun _ => ?_
        refine (passes_readGap h₁).bind fun _ c₂ h₂ _ => ?_
        have hmany := statements_pass hs (hn fun hlt => hd (by omega)) hw ha hp
          (fun hlt => hd (by omega)) (by simp) h₂
        apply hmany.bind
        intro ss' c₃ h₃ hbare
        refine (mark_passes h₃).bind fun _ c₄ h₄ _ => ?_
        exact passes_pure h₄ (by simp [Body.bare, Stmt.bare_of_each, hbare])

theorem function_passes (hs : StmtCompletes deep depth statement)
    (hn : StopsAtBrace deep depth statement) {name : String} {params : List String} {body : Body}
    {pos : Text.Position} (hw : body.WellFormed) (ha : body.Apart)
    (hd : depth + 1 < (Stmt.function name params body pos).depth → deep) {c : Cursor}
    {rest : List Token} (hc : c.tokens = (Stmt.function name params body pos).tokens ++ rest) :
    Passes deep (functionWith statement) c rest
      (fun s' => s'.bare = (Stmt.function name params body pos).bare) := by
  simp only [Stmt.depth] at hd
  simp only [Stmt.tokens, List.cons_append, List.append_assoc] at hc
  refine passes_start fun _ => ?_
  refine (keyword_passes hc).bind fun _ c₁ h₁ _ => ?_
  refine (name_passes h₁).bind fun text c₂ h₂ htext => ?_
  refine (mark_passes h₂).bind fun _ c₃ h₃ _ => ?_
  have hparams : Passes deep (commaList Parse.name) c₃ (.mark .closeParen :: (body.tokens ++ rest))
      (fun ps => ps.map id = params.map id) := by
    apply commaList_passes params ?_ ?_ c₃ h₃
    · intro p _ d t more _ ht
      exact name_passes ht
    · intro _ d ht
      exact .inl (name_refuses (by simp [ht]))
  apply hparams.bind
  intro ps c₄ h₄ hps
  refine (mark_passes h₄).bind fun _ c₅ h₅ _ => ?_
  have hbody := body_passes hs hn hw ha (fun hlt => hd (by omega)) h₅
  apply hbody.bind
  intro body' c₆ h₆ hbare
  exact passes_pure h₆ (by simp_all [Stmt.bare])

theorem initializer_passes (he : Completes deep depth 0 expression) {initializer : Option Expr}
    (hw : ∀ e ∈ initializer, e.WellFormed) (hd : ∀ e ∈ initializer, depth < e.depth → deep)
    {c : Cursor} {rest : List Token} (hl : ∀ e ∈ initializer, e.Leaves 0 rest)
    (hr : ∀ t ∈ rest.head?, t ≠ .mark .assign)
    (hc : c.tokens = Stmt.tokensOfInitializer initializer ++ rest) :
    Passes deep (Parse.optional (do mark .assign; expression)) c rest
      (fun r => r.map Expr.bare = initializer.map Expr.bare) := by
  cases initializer with
  | none =>
    have hmissing : ∀ t ∈ c.tokens.head?, t ≠ .mark .assign := by
      rw [hc]
      exact hr
    exact optional_missing (Refuses.bind (.inl (mark_refuses hmissing))) hc rfl
  | some e =>
    have hvalue : Passes deep (do mark .assign; expression) c rest
        (fun e' => e'.bare = e.bare) := by
      refine (mark_passes hc).bind fun _ c₁ h₁ _ => ?_
      exact he e c₁ rest ⟨hw e rfl, Nat.zero_le _⟩ (hd e rfl) (hl e rfl) h₁
    exact optional_passes hvalue fun e' he' => congrArg some he'

theorem declaration_passes (he : Completes deep depth 0 expression) {name : String}
    {initializer : Option Expr} {pos : Text.Position} (hw : ∀ e ∈ initializer, e.WellFormed)
    (hd : depth + 1 < (Stmt.declaration name initializer pos).depth → deep) {c : Cursor}
    {rest : List Token} (hl : (Stmt.declaration name initializer pos).Leaves rest)
    (hc : c.tokens = (Stmt.declaration name initializer pos).tokens ++ rest) :
    Passes deep (declarationWith expression) c rest
      (fun s' => s'.bare = (Stmt.declaration name initializer pos).bare) := by
  rw [Stmt.tokens_declaration] at hc
  refine passes_start fun _ => ?_
  refine (keyword_passes hc).bind fun _ c₁ h₁ _ => ?_
  refine (name_passes h₁).bind fun text c₂ h₂ htext => ?_
  have hinit : Passes deep (Parse.optional (do mark .assign; expression)) c₂ rest
      (fun r => r.map Expr.bare = initializer.map Expr.bare) := by
    apply initializer_passes he hw ?_ ?_ (fun t ht => (hl t ht).2.1) h₂
    · intro e hm hlt
      rw [Stmt.depth_declaration hm] at hd
      exact hd (by omega)
    · intro e hm
      cases hm
      exact hl.value id
  apply hinit.bind
  intro r c₃ h₃ hbare
  exact passes_pure h₃ (by simp [Stmt.bare, htext, hbare])

theorem condition_passes (he : Completes deep depth 0 expression) {e : Expr} (hw : e.WellFormed)
    (hd : depth < e.depth → deep) {c : Cursor} {rest : List Token}
    (hc : c.tokens = .mark .openParen :: (e.tokens ++ .mark .closeParen :: rest)) :
    Passes deep (conditionWith expression) c rest (fun e' => e'.bare = e.bare) := by
  refine (mark_passes hc).bind fun _ c₁ h₁ _ => ?_
  have hvalue := he e c₁ _ ⟨hw, Nat.zero_le _⟩ hd (e.leaves_list (.inr rfl) rest) h₁
  apply hvalue.bind
  intro e' c₂ h₂ hbare
  refine (mark_passes h₂).bind fun _ c₃ h₃ _ => ?_
  exact passes_pure h₃ hbare

theorem loop_passes (he : Completes deep depth 0 expression)
    (hs : StmtCompletes deep depth statement)
    (hn : StopsAtBrace deep depth statement) {condition : Expr} {body : Body} {pos : Text.Position}
    (hwc : condition.WellFormed)
    (hwb : body.WellFormed) (ha : body.Apart)
    (hd : depth + 1 < (Stmt.loop condition body pos).depth → deep) {c : Cursor}
    {rest : List Token} (hc : c.tokens = (Stmt.loop condition body pos).tokens ++ rest) :
    Passes deep (loopWith expression statement) c rest
      (fun s' => s'.bare = (Stmt.loop condition body pos).bare) := by
  simp only [Stmt.depth] at hd
  simp only [Stmt.tokens, List.cons_append, List.append_assoc] at hc
  refine passes_start fun _ => ?_
  refine (keyword_passes hc).bind fun _ c₁ h₁ _ => ?_
  have hcond := condition_passes he hwc (fun hlt => hd (by omega)) h₁
  apply hcond.bind
  intro condition' c₂ h₂ hbarec
  have hbody := body_passes hs hn hwb ha (fun hlt => hd (by omega)) h₂
  apply hbody.bind
  intro body' c₃ h₃ hbareb
  exact passes_pure h₃ (by simp [Stmt.bare, hbarec, hbareb])

theorem negative_passes (hs : StmtCompletes deep depth statement)
    (hn : StopsAtBrace deep depth statement) {negative : Option Body}
    (hw : ∀ b ∈ negative, b.WellFormed) (ha : ∀ b ∈ negative, b.Apart)
    (hd : ∀ b ∈ negative, depth < b.depth → deep) {c : Cursor} {rest : List Token}
    (hr : ∀ t ∈ rest.head?, t ≠ .keyword .otherwise)
    (hc : c.tokens = Stmt.tokensOfNegative negative ++ rest) :
    Passes deep (Parse.optional (do keyword .otherwise; bodyWith statement)) c rest
      (fun r => r.map Body.bare = negative.map Body.bare) := by
  cases negative with
  | none =>
    have hmissing : ∀ t ∈ c.tokens.head?, t ≠ .keyword .otherwise := by
      rw [hc]
      exact hr
    exact optional_missing (Refuses.bind (.inl (keyword_refuses hmissing))) hc rfl
  | some b =>
    have hbody : Passes deep (do keyword .otherwise; bodyWith statement) c rest
        (fun b' => b'.bare = b.bare) := by
      refine (keyword_passes hc).bind fun _ c₁ h₁ _ => ?_
      exact body_passes hs hn (hw b rfl) (ha b rfl) (hd b rfl) h₁
    exact optional_passes hbody fun b' hb' => congrArg some hb'

theorem branch_passes (he : Completes deep depth 0 expression)
    (hs : StmtCompletes deep depth statement)
    (hn : StopsAtBrace deep depth statement) {condition : Expr} {positive : Body}
    {negative : Option Body} {pos : Text.Position}
    (hwc : condition.WellFormed) (hwp : positive.WellFormed) (hap : positive.Apart)
    (hwn : ∀ b ∈ negative, b.WellFormed) (han : ∀ b ∈ negative, b.Apart)
    (hd : depth + 1 < (Stmt.branch condition positive negative pos).depth → deep) {c : Cursor}
    {rest : List Token} (hl : (Stmt.branch condition positive negative pos).Leaves rest)
    (hc : c.tokens = (Stmt.branch condition positive negative pos).tokens ++ rest) :
    Passes deep (branchWith expression statement) c rest
      (fun s' => s'.bare = (Stmt.branch condition positive negative pos).bare) := by
  obtain ⟨hdc, hdp, hdn⟩ := Stmt.depth_branch condition positive negative pos
  rw [Stmt.tokens_branch] at hc
  simp only [List.cons_append, List.append_assoc] at hc
  refine passes_start fun _ => ?_
  refine (keyword_passes hc).bind fun _ c₁ h₁ _ => ?_
  have hcond := condition_passes he hwc (fun hlt => hd (by omega)) h₁
  apply hcond.bind
  intro condition' c₂ h₂ hbarec
  have hpositive := body_passes hs hn hwp hap (fun hlt => hd (by omega)) h₂
  apply hpositive.bind
  intro positive' c₃ h₃ hbarep
  have hnegative := negative_passes hs hn hwn han
    (fun b hb hlt => hd (Nat.lt_of_le_of_lt hlt (hdn b hb))) (fun t ht => (hl t ht).2.2.1) h₃
  apply hnegative.bind
  intro negative' c₄ h₄ hbaren
  apply passes_pure h₄
  rw [Stmt.bare_branch, Stmt.bare_branch, hbarec, hbarep, hbaren]

theorem result_passes (he : Completes deep depth 0 expression) {value : Expr}
    {pos : Text.Position} (hw : value.WellFormed)
    (hd : depth + 1 < (Stmt.result value pos).depth → deep) {c : Cursor} {rest : List Token}
    (hl : (Stmt.result value pos).Leaves rest)
    (hc : c.tokens = (Stmt.result value pos).tokens ++ rest) :
    Passes deep (resultWith expression) c rest
      (fun s' => s'.bare = (Stmt.result value pos).bare) := by
  simp only [Stmt.depth] at hd
  simp only [Stmt.tokens, List.cons_append] at hc
  refine passes_start fun _ => ?_
  refine (keyword_passes hc).bind fun _ c₁ h₁ _ => ?_
  have hvalue := he value c₁ rest ⟨hw, Nat.zero_le _⟩ (fun hlt => hd (by omega)) (hl.value id) h₁
  apply hvalue.bind
  intro value' c₂ h₂ hbare
  exact passes_pure h₂ (by simp [Stmt.bare, hbare])

theorem assignment_passes (he : Completes deep depth 0 expression) {name : String} {value : Expr}
    {pos : Text.Position} (hw : value.WellFormed)
    (hd : depth + 1 < (Stmt.assignment name value pos).depth → deep) {c : Cursor}
    {rest : List Token} (hl : (Stmt.assignment name value pos).Leaves rest)
    (hc : c.tokens = (Stmt.assignment name value pos).tokens ++ rest) :
    Passes deep (assignmentWith expression) c rest
      (fun s' => s'.bare = (Stmt.assignment name value pos).bare) := by
  simp only [Stmt.depth] at hd
  simp only [Stmt.tokens, List.cons_append] at hc
  refine passes_here fun _ => ?_
  refine (name_passes hc).bind fun text c₁ h₁ htext => ?_
  refine (mark_passes h₁).bind fun _ c₂ h₂ _ => ?_
  have hvalue := he value c₂ rest ⟨hw, Nat.zero_le _⟩ (fun hlt => hd (by omega)) (hl.value id) h₂
  apply hvalue.bind
  intro value' c₃ h₃ hbare
  exact passes_pure h₃ (by simp [Stmt.bare, htext, hbare])

/-- What begins an expression is no assignment, unless one stands behind the expression. -/
theorem assignment_refuses {value : Expr} {c : Cursor} {rest : List Token}
    (hr : ∀ t ∈ rest.head?, t ≠ .mark .assign) (hc : c.tokens = value.tokens ++ rest) :
    ∃ f, assignmentWith expression c = .failed f := by
  have hrefuse : Refuses False (assignmentWith expression) c := by
    refine refuses_here fun _ => ?_
    by_cases hname : ∃ s ts, c.tokens = .name s :: ts
    · obtain ⟨s, ts, hs⟩ := hname
      have hassign := value.name_unassigned hr (hc.symm.trans hs)
      refine (name_passes hs).refuse fun _ c₁ h₁ => ?_
      exact Refuses.bind (.inl (mark_refuses (by rwa [h₁])))
    · apply Refuses.bind (.inl (name_refuses ?_))
      intro t ht s hs
      obtain ⟨ts, hts⟩ := List.head?_eq_some_iff.mp ht
      exact hname ⟨s, ts, hs ▸ hts⟩
  exact hrefuse.failed

theorem expressionStatement_passes (he : Completes deep depth 0 expression) {value : Expr}
    {pos : Text.Position} (hw : value.WellFormed)
    (hd : depth + 1 < (Stmt.expression value pos).depth → deep) {c : Cursor} {rest : List Token}
    (hl : (Stmt.expression value pos).Leaves rest)
    (hc : c.tokens = (Stmt.expression value pos).tokens ++ rest) :
    Passes deep (expressionStatementWith expression) c rest
      (fun s' => s'.bare = (Stmt.expression value pos).bare) := by
  simp only [Stmt.depth] at hd
  refine passes_here fun _ => ?_
  have hvalue := he value c rest ⟨hw, Nat.zero_le _⟩ (fun hlt => hd (by omega)) (hl.value id) hc
  apply hvalue.bind
  intro value' c₁ h₁ hbare
  exact passes_pure h₁ (by simp [Stmt.bare, hbare])

/-- Where no keyword stands, an assignment is tried before an expression. -/
theorem statementWith_of_no_keyword {c : Cursor} (hc : ∀ t ∈ c.tokens.head?, ∀ k, t ≠ .keyword k) :
    statementWith expression statement c =
      orElse (assignmentWith expression) (expressionStatementWith expression) c := by
  rw [← c.token_eq] at hc
  unfold statementWith
  split
  all_goals first | rfl | (next ht => exact absurd rfl (hc _ ht _))

theorem statementWith_completes (he : Completes deep depth 0 expression)
    (hs : StmtCompletes deep depth statement)
    (hn : (depth < 2 → deep) →
      ∀ c, (∀ t ∈ c.tokens.head?, t = .mark .closeBrace) → Refuses deep statement c) :
    StmtCompletes deep (depth + 1) (statementWith expression statement) := by
  intro s c rest hw ha hd hl hc
  cases hw with
  | @function name params body pos h hp hb =>
    have ht : c.token? = some (.keyword .function) := token_of_tokens hc
    cases ha with
    | function ha =>
      exact (function_passes hs hn hb ha hd hc).of_eq (by simp [statementWith, ht])
  | @declaration name initializer pos h hi =>
    have ht : c.token? = some (.keyword .var) :=
      token_of_tokens (Stmt.tokens_declaration name initializer pos ▸ hc)
    exact (declaration_passes he hi hd hl hc).of_eq (by simp [statementWith, ht])
  | @loop condition body pos hwc hwb =>
    have ht : c.token? = some (.keyword .loop) := token_of_tokens hc
    cases ha with
    | loop ha => exact (loop_passes he hs hn hwc hwb ha hd hc).of_eq (by simp [statementWith, ht])
  | @branch condition positive negative pos hwc hwp hwn =>
    have ht : c.token? = some (.keyword .branch) :=
      token_of_tokens (Stmt.tokens_branch condition positive negative pos ▸ hc)
    cases ha with
    | branch hap han =>
      have hbranch := branch_passes he hs hn hwc hwp hap hwn han hd hl hc
      exact hbranch.of_eq (by simp [statementWith, ht])
  | @result value pos h =>
    have ht : c.token? = some (.keyword .result) := token_of_tokens hc
    exact (result_passes he h hd hl hc).of_eq (by simp [statementWith, ht])
  | @assignment name value pos h hv =>
    have hassign := assignment_passes he hv hd hl hc
    exact (orElse_passes hassign).of_eq (statementWith_of_no_keyword (by simp [hc, Stmt.tokens]))
  -- the assignment that is tried first is taken back
  | @expression value pos h =>
    obtain ⟨t, ts, htokens, hopens, _⟩ := value.begins
    have hkey : ∀ u ∈ c.tokens.head?, ∀ k, u ≠ .keyword k := by
      rw [hc]
      rintro u hu k rfl
      simp only [Stmt.tokens, htokens, List.cons_append, List.head?_cons,
        Option.mem_some_iff] at hu
      subst hu
      exact hopens
    have hvalue : Passes deep (orElse (assignmentWith expression)
        (expressionStatementWith expression)) c rest _ :=
      (expressionStatement_passes he h hd hl hc).of_eq
        (orElse_of_failed (assignment_refuses (fun u hu => (hl u hu).2.1) hc))
    exact hvalue.of_eq (statementWith_of_no_keyword hkey)

end Statements

section Programs

variable {deep : Prop}

/-- At the end of a block no statement is read. -/
theorem statement_refuses {depth : Nat} {c : Cursor} (hd : depth < 2 → deep)
    (hc : ∀ t ∈ c.tokens.head?, t = .mark .closeBrace) : Refuses deep (statement depth) c := by
  cases depth with
  | zero => exact .inr ⟨hd (by omega), rfl⟩
  | succ depth =>
    have hname : ∃ f, assignmentWith (expression depth) c = .failed f := by
      refine Refuses.failed (refuses_here fun _ => Refuses.bind (.inl (name_refuses ?_)))
      intro t ht s
      simp [hc t ht]
    have hopens : ∀ t ∈ c.tokens.head?, ¬ t.Opens := by
      intro t ht
      simp [hc t ht, Token.Opens]
    have hvalue : Refuses deep (expressionStatementWith (expression depth)) c :=
      refuses_here fun _ => Refuses.bind (expression_refuses hopens fun hz => hd (by omega))
    have hkey : ∀ t ∈ c.tokens.head?, ∀ k, t ≠ .keyword k := by
      intro t ht k
      simp [hc t ht]
    have heither := hvalue.of_eq (orElse_of_failed hname)
    exact heither.of_eq (statementWith_of_no_keyword hkey)

theorem statement_completes (depth : Nat) : StmtCompletes deep depth (statement depth) := by
  induction depth with
  | zero =>
    intro s c rest _ _ hd _ _
    exact .inr ⟨hd s.depth_pos, rfl⟩
  | succ depth ih =>
    exact statementWith_completes (expression_completes depth) ih
      fun hd c hc => statement_refuses hd hc

theorem endOfText_passes {c : Cursor} (hc : c.tokens = []) (hs : c.stray = false) :
    endOfText c = .ok () c := by
  have hnil : c.lexemes = [] := List.map_eq_nil_iff.mp hc
  simp [endOfText, hnil, hs]

theorem program_completes {depth : Nat} {t : Program} (hw : t.WellFormed) (ha : t.Apart)
    (hd : depth < t.depth → deep) (htwo : depth < 2 → deep) {c : Cursor}
    (hc : c.tokens = t.tokens) (hs : c.stray = false) :
    (∃ p c', program depth c = .ok p c' ∧ p.bare = t.bare) ∨
      (deep ∧ program depth c = .tooDeep) := by
  have hmany : Passes deep (many (statement depth)) c.readGap []
      (fun ss => ss.map Stmt.bare = t.statements.map Stmt.bare) := by
    refine statements_pass (statement_completes depth) (fun c hc => statement_refuses htwo hc)
      hw ha.2 ha.1 hd (by simp) ?_
    rw [Cursor.tokens_readGap, hc, Program.tokens, List.append_nil]
  rcases hmany with ⟨ss, d, hss, hnil, hstray, hbare⟩ | ⟨hdeep, ht⟩
  · have hend : endOfText d = .ok () d := endOfText_passes hnil (hstray.trans hs)
    refine .inl ⟨⟨c.start, ss⟩, d, ?_, ?_⟩
    · exact (bind_of_ok hss).trans (bind_of_ok hend)
    · simp [Program.bare, Stmt.bare_of_each, hbare]
  · have hrest : (many (statement depth) >>= fun ss => do
        endOfText
        return (⟨c.start, ss⟩ : Program)) c.readGap = .tooDeep := bind_of_tooDeep ht
    exact .inr ⟨hdeep, hrest⟩

end Programs

/-! ## Texts -/

theorem proper_commaSeparated {tss : List (List Token)} (h : ∀ ts ∈ tss, ∀ t ∈ ts, t.Proper) :
    ∀ t ∈ commaSeparated tss, t.Proper := by
  cases tss with
  | nil => simp [commaSeparated]
  | cons ts tss =>
    intro t ht
    simp only [commaSeparated, List.mem_append, List.mem_flatMap, List.mem_cons] at ht
    rcases ht with ht | ⟨us, hus, rfl | ht⟩
    · exact h ts (by simp) t ht
    · trivial
    · exact h us (by simp [hus]) t ht

theorem Expr.WellFormed.proper {e : Expr} (h : e.WellFormed) : ∀ t ∈ e.tokens, t.Proper := by
  induction h with
  | literal h =>
    simp only [tokens, List.forall_mem_singleton]
    exact h
  | reference h =>
    simp only [tokens, List.forall_mem_singleton]
    exact h
  | @call name args pos h _ ih =>
    have hargs : ∀ t ∈ commaSeparated (args.map tokens), t.Proper :=
      proper_commaSeparated (by simpa using ih)
    simp only [tokens, tokens_of_each, List.forall_mem_cons, List.forall_mem_append]
    exact ⟨h, trivial, hargs, trivial, by simp⟩
  | parens _ ih =>
    simp only [tokens, List.forall_mem_cons, List.forall_mem_append]
    exact ⟨trivial, ih, trivial, by simp⟩
  | operation _ _ _ _ ihl ihr =>
    simp only [tokens, List.forall_mem_cons, List.forall_mem_append]
    exact ⟨ihl, trivial, ihr⟩

mutual

theorem Stmt.WellFormed.proper {s : Stmt} (h : s.WellFormed) : ∀ t ∈ s.tokens, t.Proper := by
  cases h with
  | @function name params body pos h hp hb =>
    have hparams : ∀ t ∈ commaSeparated (params.map fun p => [.name p]), t.Proper :=
      proper_commaSeparated (by simpa [Token.Proper] using hp)
    simp only [Stmt.tokens, List.forall_mem_cons, List.forall_mem_append]
    exact ⟨trivial, h, trivial, hparams, trivial, hb.proper⟩
  | @declaration name initializer pos h he =>
    simp only [Stmt.tokens_declaration, List.forall_mem_cons]
    refine ⟨trivial, h, ?_⟩
    cases initializer with
    | none => simp [Stmt.tokensOfInitializer]
    | some e => exact List.forall_mem_cons.mpr ⟨trivial, (he e rfl).proper⟩
  | loop hc hb =>
    simp only [Stmt.tokens, List.forall_mem_cons, List.forall_mem_append]
    exact ⟨trivial, trivial, hc.proper, trivial, hb.proper⟩
  | @branch condition positive negative pos hc hp hn =>
    simp only [Stmt.tokens_branch, List.forall_mem_cons, List.forall_mem_append]
    refine ⟨trivial, trivial, hc.proper, trivial, hp.proper, ?_⟩
    cases negative with
    | none => simp [Stmt.tokensOfNegative]
    | some b => exact List.forall_mem_cons.mpr ⟨trivial, (hn b rfl).proper⟩
  | result h =>
    simp only [Stmt.tokens, List.forall_mem_cons]
    exact ⟨trivial, h.proper⟩
  | assignment h he =>
    simp only [Stmt.tokens, List.forall_mem_cons]
    exact ⟨h, trivial, he.proper⟩
  | expression h => exact h.proper

theorem Body.WellFormed.proper {b : Body} (h : b.WellFormed) : ∀ t ∈ b.tokens, t.Proper := by
  cases h with
  | @braced brace pos statements h =>
    simp only [Body.tokens, Stmt.tokens_of_all, List.forall_mem_cons, List.forall_mem_append,
      List.forall_mem_flatMap]
    exact ⟨trivial, fun s hs => (h s hs).proper, trivial, by simp⟩

end

/-- A text whose tokens write a program of the grammar is read as this program up to places, unless
the program is nested too deep. -/
theorem readProgram_of_tokens {t : Program} (hw : t.WellFormed) (ha : t.Apart) {text : String}
    (htokens : (Cursor.ofText (Text.expandTabs text.toList)).tokens = t.tokens)
    (hstray : (Cursor.ofText (Text.expandTabs text.toList)).stray = false) :
    (∃ p, readProgram text = .ok p ∧ p.bare = t.bare) ∨
      (maxDepth < t.depth ∧ readProgram text = .error .tooDeep) := by
  have htwo : maxDepth < 2 → maxDepth < t.depth := fun hlt => absurd hlt (by decide)
  have hread := program_completes hw ha id htwo htokens hstray
  rcases hread with ⟨p, c', hp, hbare⟩ | ⟨hdeep, ht⟩
  · exact .inl ⟨p, by simp [readProgram, read, hp], hbare⟩
  · exact .inr ⟨hdeep, by simp [readProgram, read, ht]⟩

/-- A text that writes a program of the grammar, with spacings of any blanks and comments between
its tokens, is read as this program up to places, unless the program is nested too deep. -/
theorem readProgram_complete {t : Program} (hw : t.WellFormed) (ha : t.Apart) {text : String}
    (h : Written t.tokens text.toList) :
    (∃ p, readProgram text = .ok p ∧ p.bare = t.bare) ∨
      (maxDepth < t.depth ∧ readProgram text = .error .tooDeep) := by
  have hproper : ∀ u ∈ t.tokens, u.Proper := by
    rw [Program.tokens, Stmt.tokens_of_all, List.forall_mem_flatMap]
    exact fun s hs => (hw s hs).proper
  obtain ⟨htokens, hunread⟩ :=
    lexemes_of_written h hproper (Expansion.expandTabsFrom 0 text.toList)
  have hfirst : (Cursor.ofText (Text.expandTabs text.toList)).tokens = t.tokens := htokens
  have hstray : (Cursor.ofText (Text.expandTabs text.toList)).stray = false := by
    simp only [Cursor.ofText, Text.expandTabs, hunread]
    rfl
  exact readProgram_of_tokens hw ha hfirst hstray

/-- A return of a literal with a comment between its two tokens. -/
theorem commented_result_complete :
    ∃ p, readProgram "return // one\n 1" = .ok p ∧
      p.bare = ⟨.start, [.result (.literal "1" .start) .start]⟩ := by
  have hw : Program.WellFormed ⟨.start, [.result (.literal "1" .start) .start]⟩ := by
    intro s hs
    rw [List.mem_singleton.mp hs]
    exact .result (.literal ⟨by decide, List.all_eq_true.mp (by decide)⟩)
  have ha : Program.Apart ⟨.start, [.result (.literal "1" .start) .start]⟩ := by
    refine ⟨by simp, ?_⟩
    intro s hs
    rw [List.mem_singleton.mp hs]
    exact .result
  have htext : CommentText " one".toList :=
    .char (by decide) <| .char (by decide) <| .char (by decide) <| .char (by decide) .nil
  have hsep : Spacing " // one\n ".toList :=
    ⟨.blank (by decide) <| .comment htext (by decide) <| .blank (by decide) .nil,
      ' ', _, rfl, by decide⟩
  have hspread : Spread [.literal "1"] " // one\n 1".toList := .token hsep (.done (.inl rfl))
  have h : Written [.keyword .result, .literal "1"] "return // one\n 1".toList :=
    .begun (.inl rfl) hspread
  rcases readProgram_complete hw ha h with hread | ⟨hdeep, _⟩
  · exact hread
  · exact absurd hdeep (by decide)

end Bronti.Syntax
