import Bronti.Proofs.Advance

/-!
Readings that have to succeed: from given tokens on, they leave given tokens, unless the nesting is
too deep.
-/
namespace Bronti.Syntax

open Parse

/-- The reading leaves just the tokens `rest` and comes to something good. Where the nesting may be
too deep, it may also end because of that. -/
def Passes {α : Type} (deep : Prop) (p : Parse α) (c : Cursor) (rest : List Token)
    (good : α → Prop) : Prop :=
  (∃ a c', p c = .ok a c' ∧ c'.tokens = rest ∧ c'.stray = c.stray ∧ good a) ∨
    (deep ∧ p c = .tooDeep)

/-- The reading fails, or the nesting is too deep where it may be. -/
def Refuses {α : Type} (deep : Prop) (p : Parse α) (c : Cursor) : Prop :=
  (∃ f, p c = .failed f) ∨ (deep ∧ p c = .tooDeep)

section Steps

variable {α β γ : Type} {deep : Prop} {c : Cursor} {rest : List Token}

theorem bind_of_ok {p : Parse α} {f : α → Parse β} {a : α} {c' : Cursor} (h : p c = .ok a c') :
    (p >>= f) c = f a c' := by
  change Parse.bind p f c = _
  simp [Parse.bind, h]

theorem bind_of_failed {p : Parse α} {f : α → Parse β} {e : Failure} (h : p c = .failed e) :
    (p >>= f) c = .failed e := by
  change Parse.bind p f c = _
  simp [Parse.bind, h]

theorem bind_of_tooDeep {p : Parse α} {f : α → Parse β} (h : p c = .tooDeep) :
    (p >>= f) c = .tooDeep := by
  change Parse.bind p f c = _
  simp [Parse.bind, h]

theorem Passes.bind {p : Parse α} {f : α → Parse β} {mid : List Token} {good : α → Prop}
    {good' : β → Prop} (hp : Passes deep p c mid good)
    (hf : ∀ a d, d.tokens = mid → good a → Passes deep (f a) d rest good') :
    Passes deep (p >>= f) c rest good' := by
  rcases hp with ⟨a, d, ha, hd, hs, hg⟩ | ⟨hdeep, ht⟩
  · rw [Passes, bind_of_ok ha]
    rcases hf a d hd hg with ⟨b, e, hb, he, hs', hg'⟩ | ⟨hdeep, ht⟩
    · exact .inl ⟨b, e, hb, he, hs'.trans hs, hg'⟩
    · exact .inr ⟨hdeep, ht⟩
  · exact .inr ⟨hdeep, bind_of_tooDeep ht⟩

theorem Passes.refuse {p : Parse α} {f : α → Parse β} {mid : List Token} {good : α → Prop}
    (hp : Passes deep p c mid good) (hf : ∀ a d, d.tokens = mid → Refuses deep (f a) d) :
    Refuses deep (p >>= f) c := by
  rcases hp with ⟨a, d, ha, hd, _, _⟩ | ⟨hdeep, ht⟩
  · rw [Refuses, bind_of_ok ha]
    exact hf a d hd
  · exact .inr ⟨hdeep, bind_of_tooDeep ht⟩

theorem Refuses.bind {p : Parse α} {f : α → Parse β} (hp : Refuses deep p c) :
    Refuses deep (p >>= f) c := by
  rcases hp with ⟨e, he⟩ | ⟨hdeep, ht⟩
  · exact .inl ⟨e, bind_of_failed he⟩
  · exact .inr ⟨hdeep, bind_of_tooDeep ht⟩

theorem Passes.of_eq {p q : Parse α} {good : α → Prop} (hq : Passes deep q c rest good)
    (h : p c = q c) : Passes deep p c rest good := by
  rw [Passes, h]
  exact hq

theorem Refuses.of_eq {p q : Parse α} (hq : Refuses deep q c) (h : p c = q c) :
    Refuses deep p c := by
  rw [Refuses, h]
  exact hq

theorem passes_pure {a : α} {good : α → Prop} (hc : c.tokens = rest) (hg : good a) :
    Passes deep (pure a) c rest good := .inl ⟨a, c, rfl, hc, rfl, hg⟩

theorem passes_start {f : Text.Position → Parse β} {good : β → Prop}
    (hf : ∀ pos, Passes deep (f pos) c rest good) : Passes deep (start >>= f) c rest good := hf _

theorem passes_here {f : Text.Position → Parse β} {good : β → Prop}
    (hf : ∀ pos, Passes deep (f pos) c rest good) : Passes deep (here >>= f) c rest good := hf _

theorem refuses_here {f : Text.Position → Parse β} (hf : ∀ pos, Refuses deep (f pos) c) :
    Refuses deep (here >>= f) c := hf _

theorem Refuses.failed {p : Parse α} (hp : Refuses False p c) : ∃ f, p c = .failed f := by
  rcases hp with hf | ⟨hfalse, _⟩
  · exact hf
  · cases hfalse

theorem passes_readGap (hc : c.tokens = rest) :
    Passes deep readGap c rest (fun _ => True) := .inl ⟨(), c.readGap, rfl, hc, rfl, trivial⟩

theorem token_of_tokens {t : Token} (hc : c.tokens = t :: rest) : c.token? = some t := by
  rw [c.token_eq, hc]
  rfl

theorem tokens_skip_of {t : Token} (hc : c.tokens = t :: rest) : c.skip.tokens = rest := by
  rw [Cursor.tokens_skip, hc]
  rfl

theorem mark_passes {m : Mark} (hc : c.tokens = .mark m :: rest) :
    Passes deep (mark m) c rest (fun _ => True) := by
  refine .inl ⟨(), c.skip, ?_, tokens_skip_of hc, rfl, trivial⟩
  simp [mark, token_of_tokens hc]

theorem mark_refuses {m : Mark} (hc : ∀ t ∈ c.tokens.head?, t ≠ .mark m) :
    ∃ f, mark m c = .failed f := by
  have ht : c.token? ≠ some (.mark m) := by
    rw [c.token_eq]
    exact fun h => hc _ h rfl
  exact ⟨_, if_neg ht⟩

theorem keyword_passes {k : Keyword} (hc : c.tokens = .keyword k :: rest) :
    Passes deep (keyword k) c rest (fun _ => True) := by
  refine .inl ⟨(), c.skip, ?_, tokens_skip_of hc, rfl, trivial⟩
  simp [keyword, token_of_tokens hc]

theorem keyword_refuses {k : Keyword} (hc : ∀ t ∈ c.tokens.head?, t ≠ .keyword k) :
    ∃ f, keyword k c = .failed f := by
  have ht : c.token? ≠ some (.keyword k) := by
    rw [c.token_eq]
    exact fun h => hc _ h rfl
  exact ⟨_, if_neg ht⟩

theorem name_passes {s : String} (hc : c.tokens = .name s :: rest) :
    Passes deep name c rest (fun a => a = s) := by
  refine .inl ⟨s, c.skip, ?_, tokens_skip_of hc, rfl, rfl⟩
  simp [name, token_of_tokens hc]

theorem name_refuses (hc : ∀ t ∈ c.tokens.head?, ∀ s, t ≠ .name s) : ∃ f, name c = .failed f := by
  unfold name
  split
  · next s ht =>
    rw [c.token_eq] at ht
    exact absurd rfl (hc _ ht s)
  · exact ⟨_, rfl⟩
  · exact ⟨_, rfl⟩

theorem operator_passes {o : Operator} (hc : c.tokens = .operator o :: rest) :
    Passes deep (operator o.level) c rest (fun a => a = o) := by
  refine .inl ⟨o, c.skip, ?_, tokens_skip_of hc, rfl, rfl⟩
  simp [operator, token_of_tokens hc]

theorem operator_refuses {l : Operator.Level}
    (hc : ∀ t ∈ c.tokens.head?, ∀ o, t = .operator o → o.level ≠ l) :
    ∃ f, operator l c = .failed f := by
  unfold operator
  split
  · next o ht =>
    rw [c.token_eq] at ht
    rw [if_neg (hc _ ht o rfl)]
    exact ⟨_, rfl⟩
  · exact ⟨_, rfl⟩

theorem optional_passes {p : Parse α} {good : α → Prop} {good' : Option α → Prop}
    (hp : Passes deep p c rest good) (hg : ∀ a, good a → good' (some a)) :
    Passes deep (Parse.optional p) c rest good' := by
  rcases hp with ⟨a, d, ha, hd, hs, ha'⟩ | ⟨hdeep, ht⟩
  · exact .inl ⟨some a, d, by simp [Parse.optional, ha], hd, hs, hg a ha'⟩
  · exact .inr ⟨hdeep, by simp [Parse.optional, ht]⟩

theorem optional_missing {p : Parse α} {good : Option α → Prop} (hp : Refuses deep p c)
    (hc : c.tokens = rest) (hg : good none) : Passes deep (Parse.optional p) c rest good := by
  rcases hp with ⟨f, hf⟩ | ⟨hdeep, ht⟩
  · exact .inl ⟨none, c.readGap, by simp [Parse.optional, hf], hc, rfl, hg⟩
  · exact .inr ⟨hdeep, by simp [Parse.optional, ht]⟩

theorem orElse_passes {p q : Parse α} {good : α → Prop} (hp : Passes deep p c rest good) :
    Passes deep (orElse p q) c rest good := by
  rcases hp with ⟨a, d, ha, hd⟩ | ⟨hdeep, ht⟩
  · exact .inl ⟨a, d, by simp [orElse, ha], hd⟩
  · exact .inr ⟨hdeep, by simp [orElse, ht]⟩

theorem orElse_of_failed {p q : Parse α} (hp : ∃ f, p c = .failed f) : orElse p q c = q c := by
  obtain ⟨f, hf⟩ := hp
  simp [orElse, hf]

end Steps

/-! ## Repetition -/

section Repetition

variable {α γ : Type} {deep : Prop} {p : Parse α} {write : α → List Token} {view : α → γ}
  {rest : List Token}

/-- Items are read one after another up to where the reading refuses to go on. -/
theorem upTo_passes (hstop : ∀ c, c.tokens = rest → Refuses deep p c) (items : List α)
    (hitem : ∀ x post, x :: post <:+ items → ∀ c,
      c.tokens = write x ++ (post.flatMap write ++ rest) →
      Passes deep p c (post.flatMap write ++ rest) (fun a => view a = view x))
    (hne : ∀ x ∈ items, write x ≠ []) (limit : Nat) (c : Cursor)
    (hc : c.tokens = items.flatMap write ++ rest) (hl : c.tokens.length ≤ limit) :
    Passes deep (upTo p limit) c rest (fun as => as.map view = items.map view) := by
  induction items generalizing limit c with
  | nil =>
    cases limit with
    | zero => exact .inl ⟨[], c, rfl, hc, rfl, rfl⟩
    | succ limit =>
      rcases hstop c hc with ⟨f, hf⟩ | ⟨hdeep, ht⟩
      · exact .inl ⟨[], c, by simp [upTo, hf], hc, rfl, rfl⟩
      · exact .inr ⟨hdeep, by simp [upTo, ht]⟩
  | cons x post ih =>
    have hx : c.tokens = write x ++ (post.flatMap write ++ rest) := by simpa using hc
    have hpos : 0 < (write x).length := List.length_pos_iff.mpr (hne x (by simp))
    obtain ⟨limit, rfl⟩ : ∃ n, limit = n + 1 := by
      apply Nat.exists_eq_succ_of_ne_zero
      intro hz
      simp only [hx, List.length_append] at hl
      omega
    -- the item takes a token at least, so the limit goes down no faster than what is left
    rcases hitem x post (List.suffix_refl _) c hx with ⟨a, d, ha, hd, hs, hg⟩ | ⟨hdeep, ht⟩
    · have hshort : d.tokens.length ≤ limit := by
        rw [hx, ← hd, List.length_append] at hl
        omega
      have hmore := ih (fun y q hq => hitem y q (hq.trans (List.suffix_cons x post)))
        (fun y hy => hne y (by simp [hy])) limit d hd hshort
      rcases hmore with ⟨as, e, has, he, hs', hg'⟩ | ⟨hdeep, ht⟩
      · exact .inl ⟨a :: as, e, by simp [upTo, ha, has], he, hs'.trans hs, by simp [hg, hg']⟩
      · exact .inr ⟨hdeep, by simp [upTo, ha, ht]⟩
    · exact .inr ⟨hdeep, by simp [upTo, ht]⟩

theorem many_passes (hstop : ∀ c, c.tokens = rest → Refuses deep p c) (items : List α)
    (hitem : ∀ x post, x :: post <:+ items → ∀ c,
      c.tokens = write x ++ (post.flatMap write ++ rest) →
      Passes deep p c (post.flatMap write ++ rest) (fun a => view a = view x))
    (hne : ∀ x ∈ items, write x ≠ []) (c : Cursor) (hc : c.tokens = items.flatMap write ++ rest) :
    Passes deep (many p) c rest (fun as => as.map view = items.map view) := by
  have hl : c.tokens.length ≤ c.lexemes.length := by simp [Cursor.tokens]
  rcases upTo_passes hstop items hitem hne _ c hc hl with ⟨as, d, has, hd, hs, hg⟩ | ⟨hdeep, ht⟩
  · cases as with
    | nil => exact .inl ⟨[], d.readGap, by simp [many, has], hd, hs, hg⟩
    | cons a as => exact .inl ⟨a :: as, d, by simp [many, has], hd, hs, hg⟩
  · exact .inr ⟨hdeep, by simp [many, ht]⟩

/-- The tokens of an item of a list and of the comma before it. -/
def behindComma (write : α → List Token) (a : α) : List Token := .mark .comma :: write a

/-- What follows an item of a list begins with a comma or the parenthesis that ends the list. -/
theorem list_goes_on (post : List α) (rest : List Token) :
    ∃ t more, (t = .mark .comma ∨ t = .mark .closeParen) ∧
      post.flatMap (behindComma write) ++ .mark .closeParen :: rest = t :: more := by
  cases post with
  | nil => exact ⟨_, _, .inr rfl, rfl⟩
  | cons y post => exact ⟨_, _, .inl rfl, rfl⟩

/-- Items with commas between them are read up to the parenthesis behind them, if each of them is
read up to the comma or the parenthesis that follows it. -/
theorem commaList_passes (items : List α)
    (hitem : ∀ x ∈ items, ∀ c t more, t = .mark .comma ∨ t = .mark .closeParen →
      c.tokens = write x ++ t :: more → Passes deep p c (t :: more) (fun a => view a = view x))
    (hnone : items = [] → ∀ c, c.tokens = .mark .closeParen :: rest → Refuses deep p c) (c : Cursor)
    (hc : c.tokens = commaSeparated (items.map write) ++ .mark .closeParen :: rest) :
    Passes deep (commaList p) c (.mark .closeParen :: rest)
      (fun as => as.map view = items.map view) := by
  have hone : ∀ x ∈ items, ∀ d (post : List α),
      d.tokens = write x ++ (post.flatMap (behindComma write) ++ .mark .closeParen :: rest) →
      Passes deep p d (post.flatMap (behindComma write) ++ .mark .closeParen :: rest)
        (fun a => view a = view x) := by
    intro x hx d post hd
    obtain ⟨t, more, ht, hs⟩ := list_goes_on post rest
    rw [hs] at hd ⊢
    exact hitem x hx d t more ht hd
  refine (passes_readGap hc).bind fun _ c₁ h₁ _ => ?_
  cases items with
  | nil =>
    have hfirst : Passes deep (Parse.optional p) c₁ _ (fun r => r = none) :=
      optional_missing (hnone rfl c₁ h₁) h₁ rfl
    apply hfirst.bind
    intro r c₂ h₂ hr
    subst hr
    exact passes_pure h₂ rfl
  | cons x items =>
    have hx : c₁.tokens = write x ++
        (items.flatMap (behindComma write) ++ .mark .closeParen :: rest) := by
      rw [h₁]
      simp [commaSeparated, List.flatMap_map]
      rfl
    have hfirst : Passes deep (Parse.optional p) c₁ _
        (fun r => ∃ a, r = some a ∧ view a = view x) :=
      optional_passes (hone x (by simp) c₁ items hx) fun a ha => ⟨a, rfl, ha⟩
    apply hfirst.bind
    intro r c₂ h₂ hr
    obtain ⟨a, rfl, ha⟩ := hr
    have hrest : Passes deep (many (do mark .comma; p)) c₂ (.mark .closeParen :: rest)
        (fun as => as.map view = items.map view) := by
      apply many_passes ?_ items ?_ (by simp [behindComma]) c₂ h₂
      · intro d hd
        exact Refuses.bind (.inl (mark_refuses (by simp [hd])))
      · intro y post hy d hd
        have hmem : y ∈ items := hy.subset (by simp)
        refine (mark_passes hd).bind fun _ e he _ => ?_
        exact hone y (by simp [hmem]) e post he
    apply hrest.bind
    intro as c₃ h₃ has
    exact passes_pure h₃ (by simp [ha, has])

end Repetition

end Bronti.Syntax
