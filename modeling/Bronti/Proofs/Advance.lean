import Bronti.Proofs.Lexing
import Bronti.Syntax.Grammar

/-!
What a reading that succeeds has passed over: the tokens that write what it comes to.
-/
namespace Bronti.Syntax

open Parse

def Cursor.tokens (c : Cursor) : List Token := c.lexemes.map Lexeme.token

/-- The names and literals before a reader are proper. -/
def Cursor.Proper (c : Cursor) : Prop := ∀ t ∈ c.tokens, t.Proper

@[simp] theorem Cursor.tokens_readGap (c : Cursor) : c.readGap.tokens = c.tokens := rfl

@[simp] theorem Cursor.stray_readGap (c : Cursor) : c.readGap.stray = c.stray := rfl

@[simp] theorem Cursor.tokens_skip (c : Cursor) : c.skip.tokens = c.tokens.tail := by
  simp [Cursor.tokens]

@[simp] theorem Cursor.stray_skip (c : Cursor) : c.skip.stray = c.stray := rfl

theorem Cursor.token_eq (c : Cursor) : c.token? = c.tokens.head? := by
  simp [Cursor.token?, Cursor.tokens]

/-- A reader that has passed over some tokens. -/
structure Advance (c : Cursor) (ts : List Token) (c' : Cursor) : Prop where
  tokens : c.tokens = ts ++ c'.tokens
  stray : c'.stray = c.stray

namespace Advance

variable {c c' c'' : Cursor} {ts us : List Token}

theorem refl (c : Cursor) : Advance c [] c := ⟨rfl, rfl⟩

theorem readGap (c : Cursor) : Advance c [] c.readGap := ⟨rfl, rfl⟩

theorem trans (h : Advance c ts c') (h' : Advance c' us c'') : Advance c (ts ++ us) c'' :=
  ⟨by rw [h.tokens, h'.tokens, List.append_assoc], h'.stray.trans h.stray⟩

theorem skip {t : Token} (h : c.token? = some t) : Advance c [t] c.skip := by
  rw [c.token_eq] at h
  obtain ⟨ts, ht⟩ := List.head?_eq_some_iff.mp h
  exact ⟨by simp [ht], rfl⟩

theorem proper (h : Advance c ts c') (hc : c.Proper) : c'.Proper := by
  intro t ht
  exact hc t (by simp [h.tokens, ht])

theorem proper_passed (h : Advance c ts c') (hc : c.Proper) : ∀ t ∈ ts, t.Proper := by
  intro t ht
  exact hc t (by simp [h.tokens, ht])

end Advance

/-! ## Readings that succeed -/

section Success

variable {α β : Type} {c c' : Cursor}

theorem pure_ok {a b : α} (h : (pure a : Parse α) c = .ok b c') : b = a ∧ c' = c := by
  cases h
  exact ⟨rfl, rfl⟩

theorem bind_ok {p : Parse α} {f : α → Parse β} {b : β} (h : (p >>= f) c = .ok b c') :
    ∃ a d, p c = .ok a d ∧ f a d = .ok b c' := by
  change Parse.bind p f c = _ at h
  unfold Parse.bind at h
  split at h
  · next a d hp => exact ⟨a, d, hp, h⟩
  · cases h
  · cases h

theorem start_ok {pos : Text.Position} (h : start c = .ok pos c') : c' = c := by
  cases h
  rfl

theorem here_ok {pos : Text.Position} (h : here c = .ok pos c') : c' = c := by
  cases h
  rfl

theorem readGap_ok {u : Unit} (h : readGap c = .ok u c') : Advance c [] c' := by
  cases h
  exact .readGap c

theorem mark_ok {m : Mark} {u : Unit} (h : mark m c = .ok u c') : Advance c [.mark m] c' := by
  unfold mark at h
  split at h
  · next ht =>
    cases h
    exact .skip ht
  · cases h

theorem keyword_ok {k : Keyword} {u : Unit} (h : keyword k c = .ok u c') :
    Advance c [.keyword k] c' := by
  unfold keyword at h
  split at h
  · next ht =>
    cases h
    exact .skip ht
  · cases h

theorem name_ok {s : String} (h : name c = .ok s c') : Advance c [.name s] c' := by
  unfold name at h
  split at h
  · next ht =>
    cases h
    exact .skip ht
  · cases h
  · cases h

theorem operator_ok {l : Operator.Level} {o : Operator} (h : operator l c = .ok o c') :
    o.level = l ∧ Advance c [.operator o] c' := by
  unfold operator at h
  split at h
  · next ht =>
    split at h
    · next hl =>
      cases h
      exact ⟨hl, .skip ht⟩
    · cases h
  · cases h

theorem endOfText_ok {u : Unit} (h : endOfText c = .ok u c') :
    c.tokens = [] ∧ c.stray = false ∧ c' = c := by
  unfold endOfText at h
  split at h
  · next he =>
    cases h
    simp only [Bool.and_eq_true, List.isEmpty_iff, Bool.not_eq_true'] at he
    exact ⟨by simp [Cursor.tokens, he.1], he.2, rfl⟩
  · cases h

theorem optional_ok {p : Parse α} {r : Option α} (h : Parse.optional p c = .ok r c') :
    (∃ a, r = some a ∧ p c = .ok a c') ∨ (r = none ∧ Advance c [] c') := by
  unfold Parse.optional at h
  split at h
  · next a d hp =>
    cases h
    exact .inl ⟨a, rfl, hp⟩
  · cases h
    exact .inr ⟨rfl, .readGap c⟩
  · cases h

theorem orElse_ok {p q : Parse α} {a : α} (h : orElse p q c = .ok a c') :
    p c = .ok a c' ∨ q c = .ok a c' := by
  unfold orElse at h
  split at h
  · exact .inr h
  · exact .inl h

end Success

/-- Whenever the reading succeeds, the tokens that write what it comes to are those passed over, and
it is good where the tokens are proper. -/
def Sound {α : Type} (p : Parse α) (write : α → List Token) (good : α → Prop) : Prop :=
  ∀ {c a c'}, p c = .ok a c' → Advance c (write a) c' ∧ (c.Proper → good a)

section Combinators

variable {α : Type} {p : Parse α} {write : α → List Token} {good : α → Prop}

theorem upTo_sound (hp : Sound p write good) (limit : Nat) :
    Sound (upTo p limit) (fun as => as.flatMap write) (fun as => ∀ a ∈ as, good a) := by
  induction limit with
  | zero =>
    intro c as c' h
    cases h
    exact ⟨.refl c, by simp⟩
  | succ limit ih =>
    intro c as c' h
    unfold upTo at h
    split at h
    · next a d ha =>
      split at h
      · next bs e hb =>
        cases h
        obtain ⟨hpass, hgood⟩ := hp ha
        obtain ⟨hmore, hall⟩ := ih hb
        refine ⟨hpass.trans hmore, ?_⟩
        intro hc x hx
        rcases List.mem_cons.mp hx with rfl | hx
        · exact hgood hc
        · exact hall (hpass.proper hc) x hx
      · cases h
      · cases h
    · cases h
      exact ⟨.refl c, by simp⟩
    · cases h

theorem many_sound (hp : Sound p write good) :
    Sound (many p) (fun as => as.flatMap write) (fun as => ∀ a ∈ as, good a) := by
  intro c as c' h
  unfold many at h
  split at h
  · next d hd =>
    cases h
    obtain ⟨hpass, hall⟩ := upTo_sound hp _ hd
    exact ⟨hpass.trans (.readGap d), hall⟩
  · exact upTo_sound hp _ h

/-- A reading behind a token that is fixed. -/
theorem after_sound {lead : Parse Unit} {t : Token}
    (hlead : ∀ {c c' : Cursor} {u : Unit}, lead c = .ok u c' → Advance c [t] c')
    (hp : Sound p write good) : Sound (do lead; p) (fun a => t :: write a) good := by
  intro c a c' h
  obtain ⟨_, d, hm, ha⟩ := bind_ok h
  have p₁ := hlead hm
  obtain ⟨p₂, hgood⟩ := hp ha
  exact ⟨p₁.trans p₂, fun hc => hgood (p₁.proper hc)⟩

theorem optional_sound (hp : Sound p write good) :
    Sound (Parse.optional p) (fun r => r.elim [] write) (fun r => ∀ a ∈ r, good a) := by
  intro c r c' h
  rcases optional_ok h with ⟨a, rfl, ha⟩ | ⟨rfl, hnone⟩
  · obtain ⟨hpass, hgood⟩ := hp ha
    exact ⟨hpass, by simpa using hgood⟩
  · exact ⟨hnone, by simp⟩

theorem commaList_sound (hp : Sound p write good) :
    Sound (commaList p) (fun as => commaSeparated (as.map write)) (fun as => ∀ a ∈ as, good a) := by
  have hmore : Sound (do mark .comma; p) (fun a => .mark .comma :: write a) good :=
    after_sound mark_ok hp
  intro c as c' h
  obtain ⟨_, d, hd, h⟩ := bind_ok h
  have hgap := readGap_ok hd
  obtain ⟨first, e, he, h⟩ := bind_ok h
  rcases optional_ok he with ⟨a, rfl, ha⟩ | ⟨rfl, hnone⟩
  · obtain ⟨rest, f, hf, h⟩ := bind_ok h
    obtain ⟨rfl, rfl⟩ := pure_ok h
    obtain ⟨hfirst, hgood⟩ := hp ha
    obtain ⟨hrest, hall⟩ := many_sound hmore hf
    have hpass := hgap.trans hfirst
    refine ⟨?_, ?_⟩
    · simpa [commaSeparated, List.flatMap_map] using hpass.trans hrest
    · intro hc x hx
      rcases List.mem_cons.mp hx with rfl | hx
      · exact hgood (hgap.proper hc)
      · exact hall (hpass.proper hc) x hx
  · obtain ⟨rfl, rfl⟩ := pure_ok h
    exact ⟨hgap.trans hnone, by simp⟩

end Combinators

end Bronti.Syntax
