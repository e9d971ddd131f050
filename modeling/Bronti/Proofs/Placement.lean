import Bronti.Proofs.Nodes
import Bronti.Proofs.ParsedTrees

/-!
Where nodes are placed. A reading goes forward through the text, and every node it makes begins where
the reader stands then: at the first token of the node, or behind the token before it.
-/
namespace Bronti.Syntax

open Text (Position)
open Parse

/-- The node begins in the gap before its first token, with nothing but blanks up to it, and with
nothing at all up to it unless the node lags. -/
def Node.Stands (n : Node) (text : List Char) : Prop :=
  ∃ front blanks left, LexedTo n.before text left ∧ text = front ++ (blanks ++ behindGap left) ∧
    Blank blanks ∧ (n.lags = false → blanks = []) ∧ n.pos = Position.start.advance front

section Standing

variable {c : Cursor} {text : List Char} {ts : List Token} {n : Node}

theorem Cursor.At.stands_start (h : c.At text ts) (hpos : n.pos = c.start) (hb : n.before = ts) :
    n.Stands text := by
  obtain ⟨front, skipped, blanks, left, hf⟩ := h.facing
  refine ⟨front ++ (skipped ++ blanks), [], left, hb ▸ hf.behind, ?_, by simp [Blank],
    fun _ => rfl, hpos.trans hf.start_eq⟩
  calc text = front ++ left := hf.whole
    _ = front ++ (skipped ++ (blanks ++ behindGap left)) := by rw [← hf.next]
    _ = front ++ (skipped ++ blanks) ++ ([] ++ behindGap left) := by simp

theorem Cursor.At.stands_here (h : c.At text ts) (hpos : n.pos = c.here) (hb : n.before = ts)
    (hl : n.lags = false → c.gapRead = true) : n.Stands text := by
  cases hg : c.gapRead with
  | true =>
    have hstart : c.here = c.start := by simp [Cursor.here, Cursor.start, hg]
    exact h.stands_start (hpos.trans hstart) hb
  | false =>
    obtain ⟨front, skipped, blanks, left, hf⟩ := h.facing
    have hhere : c.here = Position.start.advance (front ++ skipped) := by
      simpa [hg] using hf.here_eq
    refine ⟨front ++ skipped, blanks, left, hb ▸ hf.behind, ?_, hf.blank, ?_,
      hpos.trans hhere⟩
    · calc text = front ++ left := hf.whole
        _ = front ++ (skipped ++ (blanks ++ behindGap left)) := by rw [← hf.next]
        _ = front ++ skipped ++ (blanks ++ behindGap left) := by simp
    · intro hn
      simp [hg] at hl
      simp [hl] at hn

end Standing

/-! ## Readings that go forward -/

/-- A reader that has gone forward in a text over some tokens, and the nodes made on the way: each
stands where it is to stand, and they are in the order of their places. -/
structure Trip (text : List Char) (ts : List Token) (c : Cursor) (us : List Token)
    (ns : List Node) (c' : Cursor) : Prop where
  at_end : c'.At text (ts ++ us)
  stands : ∀ n ∈ ns, n.Stands text
  sorted : ns.Pairwise fun m n => m.pos.offset ≤ n.pos.offset
  low : ∀ n ∈ ns, c.here.offset ≤ n.pos.offset
  high : ∀ n ∈ ns, n.pos.offset ≤ c'.here.offset
  forward : c.here.offset ≤ c'.here.offset

/-- The reader passes over one token. -/
structure Takes (c : Cursor) (t : Token) (c' : Cursor) : Prop where
  token : c.token? = some t
  stop : c' = c.skip

namespace Trip

variable {text : List Char} {ts us vs : List Token} {c c' c'' : Cursor} {ms ns : List Node}
  {n : Node} {t : Token}

theorem refl (h : c.At text ts) : Trip text ts c [] [] c :=
  ⟨by simpa using h, by simp, .nil, by simp, by simp, Nat.le_refl _⟩

theorem readGap (h : c.At text ts) : Trip text ts c [] [] c.readGap := by
  refine ⟨by simpa using h.readGap, by simp, .nil, by simp, by simp, ?_⟩
  have hread : c.readGap.here = c.start := rfl
  rw [hread]
  exact h.here_le_start

theorem trans (h : Trip text ts c us ms c') (h' : Trip text (ts ++ us) c' vs ns c'') :
    Trip text ts c (us ++ vs) (ms ++ ns) c'' where
  at_end := by simpa using h'.at_end
  stands := List.forall_mem_append.mpr ⟨h.stands, h'.stands⟩
  sorted := List.pairwise_append.mpr
    ⟨h.sorted, h'.sorted, fun m hm n hn => (h.high m hm).trans (h'.low n hn)⟩
  low := List.forall_mem_append.mpr ⟨h.low, fun n hn => h.forward.trans (h'.low n hn)⟩
  high := List.forall_mem_append.mpr ⟨fun m hm => (h.high m hm).trans h'.forward, h'.high⟩
  forward := h.forward.trans h'.forward

theorem take (h : c.At text ts) (ht : Takes c t c') : Trip text ts c [t] [] c' := by
  obtain ⟨ht, rfl⟩ := ht
  refine ⟨h.skip ht, by simp, .nil, by simp, by simp, ?_⟩
  exact (h.here_le_start.trans_lt (h.start_lt_skip ht)).le

theorem read (h : Trip text ts c us ns c') : Trip text ts c us ns c'.readGap := by
  simpa using h.trans (readGap h.at_end)

theorem readIf (h : Trip text ts c us ns c') (b : Bool) :
    Trip text ts c us ns (if b then c'.readGap else c') := by
  cases b
  · exact h
  · exact h.read

/-- A token at which a node begins. -/
theorem begin (h : c.At text ts) (ht : Takes c t c') (hpos : n.pos = c.start)
    (hb : n.before = ts) : Trip text ts c [t] [n] c' := by
  have htake := take h ht
  obtain ⟨ht, rfl⟩ := ht
  exact ⟨htake.at_end, by simpa using h.stands_start hpos hb, by simp,
    by simpa [hpos] using h.here_le_start, by simpa [hpos] using (h.start_lt_skip ht).le,
    htake.forward⟩

/-- A node that begins where the reader sets out. -/
theorem under (h : Trip text ts c us ns c') (hs : n.Stands text) (hpos : n.pos = c.here) :
    Trip text ts c us (n :: ns) c' where
  at_end := h.at_end
  stands := List.forall_mem_cons.mpr ⟨hs, h.stands⟩
  sorted := List.pairwise_cons.mpr ⟨by simpa [hpos] using h.low, h.sorted⟩
  low := List.forall_mem_cons.mpr ⟨by simp [hpos], h.low⟩
  high := List.forall_mem_cons.mpr ⟨by simpa [hpos] using h.forward, h.high⟩
  forward := h.forward

/-- A node that begins where the first one does. -/
theorem double (h : Trip text ts c us (n :: ns) c') {m : Node} (hpos : m.pos = n.pos)
    (hb : m.before = n.before) (hl : m.lags = n.lags) : Trip text ts c us (m :: n :: ns) c' where
  at_end := h.at_end
  stands := by
    refine List.forall_mem_cons.mpr ⟨?_, h.stands⟩
    have hn := h.stands n (by simp)
    unfold Node.Stands at hn ⊢
    rw [hpos, hb, hl]
    exact hn
  sorted := by
    refine List.pairwise_cons.mpr ⟨?_, h.sorted⟩
    rw [hpos]
    exact List.forall_mem_cons.mpr ⟨Nat.le_refl _, (List.pairwise_cons.mp h.sorted).1⟩
  low := List.forall_mem_cons.mpr ⟨hpos ▸ h.low n (by simp), h.low⟩
  high := List.forall_mem_cons.mpr ⟨hpos ▸ h.high n (by simp), h.high⟩
  forward := h.forward

end Trip

section Steps

variable {c c' : Cursor}

theorem mark_takes {m : Mark} {u : Unit} (h : mark m c = .ok u c') : Takes c (.mark m) c' := by
  unfold mark at h
  split at h
  · next ht =>
    cases h
    exact ⟨ht, rfl⟩
  · cases h

theorem keyword_takes {k : Keyword} {u : Unit} (h : keyword k c = .ok u c') :
    Takes c (.keyword k) c' := by
  unfold keyword at h
  split at h
  · next ht =>
    cases h
    exact ⟨ht, rfl⟩
  · cases h

theorem name_takes {s : String} (h : name c = .ok s c') : Takes c (.name s) c' := by
  unfold name at h
  split at h
  · next ht =>
    cases h
    exact ⟨ht, rfl⟩
  · cases h
  · cases h

theorem optional_cases {α : Type} {p : Parse α} {r : Option α}
    (h : Parse.optional p c = .ok r c') :
    (∃ a, r = some a ∧ p c = .ok a c') ∨ (r = none ∧ c' = c.readGap) := by
  unfold Parse.optional at h
  split at h
  · next a d hp =>
    cases h
    exact .inl ⟨a, rfl, hp⟩
  · cases h
    exact .inr ⟨rfl, rfl⟩
  · cases h

theorem operator_takes {l : Operator.Level} {o : Operator} (h : operator l c = .ok o c') :
    Takes c (.operator o) c' := by
  unfold operator at h
  split at h
  · next ht =>
    split at h
    · cases h
      exact ⟨ht, rfl⟩
    · cases h
  · cases h

end Steps

/-- Whenever the reading succeeds, it goes forward over the tokens that write what it comes to and
makes its nodes; and the gap behind is read unless it is left unread. -/
def Placed {α : Type} (p : Parse α) (write : α → List Token)
    (nodes : List Token → Bool → α → List Node) (unread : α → Bool) : Prop :=
  ∀ {text ts c a c'}, c.At text ts → p c = .ok a c' →
    Trip text ts c (write a) (nodes ts (!c.gapRead) a) c' ∧ c'.gapRead = !unread a

/-! ## Repeated readings -/

section Lists

variable {α : Type} {p : Parse α} {write : α → List Token} {nodes : List Token → α → List Node}
  {unread : α → Bool} {text : List Char} {ts : List Token} {c c' : Cursor} {as : List α}

theorem many_upTo (h : many p c = .ok as c') :
    ∃ d, upTo p c.lexemes.length c = .ok as d ∧ c' = if as.isEmpty then d.readGap else d := by
  unfold many at h
  split at h
  · next d hd =>
    cases h
    exact ⟨d, hd, rfl⟩
  · next hne =>
    refine ⟨c', h, ?_⟩
    cases as with
    | nil => exact absurd h (hne c')
    | cons a as => rfl

theorem many_row_gap (h : many p c = .ok as c') :
    ∃ d, Row p c as d ∧ c' = if as.isEmpty then d.readGap else d := by
  obtain ⟨d, hd, hc⟩ := many_upTo h
  exact ⟨d, upTo_row hd, hc⟩

/-- The nodes of items with commas between them. -/
def itemNodes (write : α → List Token) (nodes : List Token → α → List Node) :
    List Token → List α → List Node
  | _, [] => []
  | before, a :: as =>
    nodes before a ++ itemNodes write nodes (before ++ write a ++ [.mark .comma]) as

/-- Items, each behind a comma. -/
theorem comma_row (hp : Placed p write (fun ts _ a => nodes ts a) unread) (hc : c.At text ts)
    (h : Row (do mark .comma; p) c as c') :
    Trip text ts c (as.flatMap (behindComma write))
      (itemNodes write nodes (ts ++ [.mark .comma]) as) c' := by
  induction h generalizing ts with
  | nil => exact .refl hc
  | cons first more ih =>
    obtain ⟨_, d, hcomma, ha⟩ := bind_ok first
    have h₁ := Trip.take hc (mark_takes hcomma)
    obtain ⟨h₂, -⟩ := hp h₁.at_end ha
    have h₁₂ := h₁.trans h₂
    have hall := h₁₂.trans (ih h₁₂.at_end)
    simpa [behindComma, itemNodes] using hall

theorem commaList_placed (hp : Placed p write (fun ts _ a => nodes ts a) unread)
    (hc : c.At text ts) (h : commaList p c = .ok as c') :
    Trip text ts c (commaSeparated (as.map write)) (itemNodes write nodes ts as) c' := by
  obtain ⟨_, d, hd, h⟩ := bind_ok h
  cases hd
  have h₁ := Trip.readGap hc
  obtain ⟨first, e, he, h⟩ := bind_ok h
  rcases optional_cases he with ⟨a, rfl, ha⟩ | ⟨rfl, rfl⟩
  · obtain ⟨rest, f, hf, h⟩ := bind_ok h
    obtain ⟨rfl, rfl⟩ := pure_ok h
    obtain ⟨h₂, -⟩ := hp h₁.at_end ha
    obtain ⟨g, hrow, rfl⟩ := many_row_gap hf
    have h₁₂ := h₁.trans h₂
    have hall := h₁₂.trans (comma_row hp h₁₂.at_end hrow)
    have htokens : commaSeparated ((a :: rest).map write) =
        write a ++ rest.flatMap (behindComma write) := by
      simp only [List.map_cons, commaSeparated, List.flatMap_map]
      rfl
    rw [htokens]
    simpa [itemNodes] using hall.readIf rest.isEmpty
  · obtain ⟨rfl, rfl⟩ := pure_ok h
    exact h₁.read

end Lists

/-! ## Expressions -/

/-- Expressions are read and their nodes made; at most `n` operations end together with one, and
just where there are `n` of them the gap behind it is not read. -/
def PlacedUpTo (n : Nat) (p : Parse Expr) : Prop :=
  ∀ {text ts c e c'}, c.At text ts → p c = .ok e c' →
    Trip text ts c e.tokens (e.nodes ts) c' ∧ c'.gapRead = !(e.trailing == n) ∧ e.trailing ≤ n

theorem Expr.nodes_of_items (before : List Token) (es : List Expr) :
    nodesOfItems before es = itemNodes tokens (fun ts e => e.nodes ts) before es := by
  induction es generalizing before with
  | nil => rfl
  | cons e es ih => rw [nodesOfItems, itemNodes, ih]

/-- The operands of an operation and the operator between them. -/
theorem Trip.operation {text : List Char} {ts : List Token} {c d d' c' : Cursor}
    {left right : Expr} {op : Operator} (h : Trip text ts c left.tokens (left.nodes ts) d)
    (hop : Takes d (.operator op) d')
    (h' : Trip text (ts ++ left.tokens ++ [.operator op]) d' right.tokens
      (right.nodes (ts ++ left.tokens ++ [.operator op])) c') :
    Trip text ts c (Expr.operation left op right).tokens
      ((Expr.operation left op right).nodes ts) c' := by
  have h₁ := h.trans (.take h.at_end hop)
  have h₂ : Trip text ts c _ _ c' := h₁.trans (by simpa using h')
  obtain ⟨n, rest, hnodes, hpos, hbefore, hlags⟩ := Expr.nodes_head ts left
  rw [Expr.nodes, hnodes]
  rw [hnodes] at h₂
  apply Trip.double _ hpos.symm hbefore.symm hlags.symm
  simpa [Expr.tokens] using h₂

section Expressions

variable {inner : Parse Expr} {text : List Char} {ts : List Token} {c c' : Cursor} {e : Expr}

theorem call_placed (hi : PlacedUpTo 5 inner) : PlacedUpTo 0 (callWith inner) := by
  intro text ts c e c' hc h
  obtain ⟨pos, _, hpos, h⟩ := bind_ok h
  cases hpos
  obtain ⟨callee, c₁, hname, h⟩ := bind_ok h
  obtain ⟨_, c₂, hopen, h⟩ := bind_ok h
  obtain ⟨args, c₃, hargs, h⟩ := bind_ok h
  obtain ⟨_, c₄, hclose, h⟩ := bind_ok h
  obtain ⟨rfl, rfl⟩ := pure_ok h
  have hitem : Placed inner Expr.tokens (fun ts _ e => e.nodes ts) (fun e => e.trailing == 5) :=
    fun hc h => ⟨(hi hc h).1, (hi hc h).2.1⟩
  have h₁ := Trip.take hc (name_takes hname)
  have h₂ := h₁.trans (.take h₁.at_end (mark_takes hopen))
  have h₃ := h₂.trans (commaList_placed hitem h₂.at_end hargs)
  have h₄ := h₃.trans (.take h₃.at_end (mark_takes hclose))
  refine ⟨?_, by rw [(mark_takes hclose).stop]; rfl, Nat.le_refl _⟩
  rw [Expr.nodes, Expr.nodes_of_items]
  apply Trip.under _ (hc.stands_here rfl rfl (by simp)) rfl
  simpa [Expr.tokens, Expr.tokens_of_each] using h₄

theorem reference_placed : PlacedUpTo 0 reference := by
  intro text ts c e c' hc h
  obtain ⟨pos, _, hpos, h⟩ := bind_ok h
  cases hpos
  obtain ⟨name, c₁, hname, h⟩ := bind_ok h
  obtain ⟨rfl, rfl⟩ := pure_ok h
  refine ⟨?_, by rw [(name_takes hname).stop]; rfl, Nat.le_refl _⟩
  exact (Trip.take hc (name_takes hname)).under (hc.stands_here rfl rfl (by simp)) rfl

theorem parens_placed (hi : PlacedUpTo 5 inner) : PlacedUpTo 0 (parensWith inner) := by
  intro text ts c e c' hc h
  obtain ⟨pos, _, hpos, h⟩ := bind_ok h
  cases hpos
  obtain ⟨_, c₁, hopen, h⟩ := bind_ok h
  obtain ⟨e, c₂, he, h⟩ := bind_ok h
  obtain ⟨_, c₃, hclose, h⟩ := bind_ok h
  obtain ⟨rfl, rfl⟩ := pure_ok h
  have h₁ := Trip.begin (n := ⟨"PARENTHESIZED", c.start, ts, (Expr.parens e c.start).tokens, false⟩)
    hc (mark_takes hopen) rfl rfl
  have h₂ := h₁.trans (hi h₁.at_end he).1
  have h₃ := h₂.trans (.take h₂.at_end (mark_takes hclose))
  refine ⟨?_, by rw [(mark_takes hclose).stop]; rfl, Nat.le_refl _⟩
  simpa [Expr.tokens, Expr.nodes] using h₃

theorem atom_placed (hi : PlacedUpTo 5 inner) : PlacedUpTo 0 (atomWith inner) := by
  intro text ts c e c' hc h
  unfold atomWith at h
  split at h
  · rcases orElse_ok h with h | h
    · exact call_placed hi hc h
    · exact reference_placed hc h
  · next ht =>
    cases h
    exact ⟨.begin hc ⟨ht, rfl⟩ rfl rfl, rfl, Nat.le_refl _⟩
  · exact parens_placed hi hc h
  · cases h

/-- Operations of one level, from the left: the last one ends where its right operand does. -/
theorem folded_placed {n : Nat} {l : Operator.Level} {operand : Parse Expr}
    (ho : PlacedUpTo n operand) {rest : List (Operator × Expr)} {d : Cursor}
    (h : Row (operationWith l operand) d rest c') {first : Expr}
    (hf : Trip text ts c first.tokens (first.nodes ts) d) :
    Trip text ts c (folded first rest).tokens ((folded first rest).nodes ts) c' ∧
      (rest ≠ [] → c'.gapRead = !((folded first rest).trailing == n + 1) ∧
        (folded first rest).trailing ≤ n + 1) := by
  induction h generalizing first with
  | nil => exact ⟨hf, by simp⟩
  | @cons d d' c' r rest hr more ih =>
    obtain ⟨op, d₁, hop, hr⟩ := bind_ok hr
    obtain ⟨right, d₂, hright, hr⟩ := bind_ok hr
    obtain ⟨rfl, rfl⟩ := pure_ok hr
    have hop := (operator_takes hop)
    have hbehind := (hf.trans (.take hf.at_end hop)).at_end
    rw [← List.append_assoc] at hbehind
    obtain ⟨hsecond, hread, hbound⟩ := ho hbehind hright
    have hstep := hf.operation hop hsecond
    obtain ⟨hall, hlast⟩ := ih hstep
    refine ⟨hall, fun _ => ?_⟩
    by_cases hrest : rest = []
    · subst hrest
      cases more
      simpa [folded, Expr.trailing] using And.intro hread hbound
    · exact hlast hrest

theorem level_placed {n : Nat} (l : Operator.Level) {operand : Parse Expr}
    (ho : PlacedUpTo n operand) : PlacedUpTo (n + 1) (levelWith l operand) := by
  intro text ts c e c' hc h
  obtain ⟨first, c₁, hfirst, h⟩ := bind_ok h
  obtain ⟨rest, c₂, hrest, h⟩ := bind_ok h
  obtain ⟨rfl, rfl⟩ := pure_ok h
  obtain ⟨hf, -, hbound⟩ := ho hc hfirst
  obtain ⟨d, hrow, rfl⟩ := many_row_gap hrest
  obtain ⟨hall, hlast⟩ := folded_placed ho hrow hf
  refine ⟨hall.readIf _, ?_⟩
  cases rest with
  | nil =>
    cases hrow
    have hne : ¬ first.trailing = n + 1 := by omega
    exact ⟨by simp [Cursor.readGap, hne], Nat.le_succ_of_le hbound⟩
  | cons r rest => exact hlast (by simp)

theorem expression_placed (depth : Nat) : PlacedUpTo 5 (expression depth) := by
  induction depth with
  | zero =>
    intro text ts c e c' _ h
    cases h
  | succ depth ih =>
    exact level_placed .disjunction <| level_placed .conjunction <| level_placed .comparison <|
      level_placed .sum <| level_placed .product <| atom_placed ih

end Expressions

/-! ## Statements -/

section Statements

variable {expression : Parse Expr} {statement : Parse Stmt} {text : List Char} {ts : List Token}
  {c c' : Cursor}

/-- Statements one after another. -/
theorem statement_row (hs : Placed statement Stmt.tokens Stmt.nodes Stmt.leavesGap)
    (hc : c.At text ts) {ss : List Stmt} (h : Row statement c ss c') :
    Trip text ts c (Stmt.tokensOfAll ss) (Stmt.nodesOfAll ts (!c.gapRead) ss) c' := by
  induction h generalizing ts with
  | nil => exact .refl hc
  | cons first more ih =>
    obtain ⟨h₁, hread⟩ := hs hc first
    have hmore := ih h₁.at_end
    rw [hread, Bool.not_not] at hmore
    exact h₁.trans hmore

/-- Statements that the gap before them has been read for. -/
theorem statements_placed (hs : Placed statement Stmt.tokens Stmt.nodes Stmt.leavesGap)
    (hc : c.At text ts) {ss : List Stmt} (h : many statement c.readGap = .ok ss c') :
    Trip text ts c.readGap (Stmt.tokensOfAll ss) (Stmt.nodesOfAll ts false ss) c' := by
  obtain ⟨d, hrow, rfl⟩ := many_row_gap h
  exact (statement_row hs hc.readGap hrow).readIf _

theorem body_placed (hs : Placed statement Stmt.tokens Stmt.nodes Stmt.leavesGap) :
    Placed (bodyWith statement) Body.tokens (fun ts _ b => b.nodes ts) (fun _ => true) := by
  intro text ts c b c' hc h
  obtain ⟨brace, _, hbrace, h⟩ := bind_ok h
  cases hbrace
  obtain ⟨_, c₁, hopen, h⟩ := bind_ok h
  obtain ⟨pos, _, hpos, h⟩ := bind_ok h
  cases hpos
  obtain ⟨_, _, hgap, h⟩ := bind_ok h
  cases hgap
  obtain ⟨statements, c₂, hmany, h⟩ := bind_ok h
  obtain ⟨_, c₃, hclose, h⟩ := bind_ok h
  obtain ⟨rfl, rfl⟩ := pure_ok h
  let body := Body.braced c.start c₁.start statements
  have h₁ := Trip.begin (n := ⟨"BRACED_BLOCK", c.start, ts, body.tokens, false⟩) hc
    (mark_takes hopen) rfl rfl
  have hinner := statements_placed hs h₁.at_end hmany
  have hblock := hinner.under
    (n := ⟨"BLOCK", c₁.start, ts ++ [.mark .openBrace], Stmt.tokensOfAll statements, false⟩)
    (h₁.at_end.stands_start rfl rfl) rfl
  have h₂ := h₁.read.trans hblock
  have h₃ := h₂.trans (.take h₂.at_end (mark_takes hclose))
  refine ⟨?_, by rw [(mark_takes hclose).stop]; rfl⟩
  simpa [Body.tokens, Body.nodes, body] using h₃

theorem names_placed :
    Placed name (fun s => [.name s]) (fun _ _ _ => []) (fun _ => true) := by
  intro text ts c s c' hc h
  exact ⟨.take hc (name_takes h), by rw [(name_takes h).stop]; rfl⟩

theorem itemNodes_none {α : Type} (write : α → List Token) (before : List Token) (as : List α) :
    itemNodes write (fun _ _ => []) before as = [] := by
  induction as generalizing before with
  | nil => rfl
  | cons a as ih => exact ih _

theorem function_placed (hs : Placed statement Stmt.tokens Stmt.nodes Stmt.leavesGap) :
    Placed (functionWith statement) Stmt.tokens Stmt.nodes Stmt.leavesGap := by
  intro text ts c s c' hc h
  obtain ⟨pos, _, hpos, h⟩ := bind_ok h
  cases hpos
  obtain ⟨_, c₁, hkey, h⟩ := bind_ok h
  obtain ⟨text, c₂, hname, h⟩ := bind_ok h
  obtain ⟨_, c₃, hopen, h⟩ := bind_ok h
  obtain ⟨params, c₄, hparams, h⟩ := bind_ok h
  obtain ⟨_, c₅, hclose, h⟩ := bind_ok h
  obtain ⟨body, c₆, hbody, h⟩ := bind_ok h
  obtain ⟨rfl, rfl⟩ := pure_ok h
  let s := Stmt.function text params body c.start
  have h₁ := Trip.begin (n := ⟨"FUNCTION_DEF", c.start, ts, s.tokens, false⟩) hc
    (keyword_takes hkey) rfl rfl
  have h₂ := h₁.trans (.take h₁.at_end (name_takes hname))
  have h₃ := h₂.trans (.take h₂.at_end (mark_takes hopen))
  have hnames := commaList_placed names_placed h₃.at_end hparams
  rw [itemNodes_none] at hnames
  have h₄ := h₃.trans hnames
  have h₅ := h₄.trans (.take h₄.at_end (mark_takes hclose))
  obtain ⟨hlast, hread⟩ := body_placed hs h₅.at_end hbody
  refine ⟨?_, hread⟩
  simpa [Stmt.tokens, Stmt.nodes, s] using h₅.trans hlast

theorem declaration_placed (he : PlacedUpTo 5 expression) :
    Placed (declarationWith expression) Stmt.tokens Stmt.nodes Stmt.leavesGap := by
  intro text ts c s c' hc h
  obtain ⟨pos, _, hpos, h⟩ := bind_ok h
  cases hpos
  obtain ⟨_, c₁, hkey, h⟩ := bind_ok h
  obtain ⟨text, c₂, hname, h⟩ := bind_ok h
  obtain ⟨initializer, c₃, hinit, h⟩ := bind_ok h
  obtain ⟨rfl, rfl⟩ := pure_ok h
  let s := Stmt.declaration text initializer c.start
  have h₁ := Trip.begin (n := ⟨"VARIABLE_DECL", c.start, ts, s.tokens, false⟩) hc
    (keyword_takes hkey) rfl rfl
  have h₂ := h₁.trans (.take h₁.at_end (name_takes hname))
  rcases optional_cases hinit with ⟨e, rfl, he'⟩ | ⟨rfl, rfl⟩
  · obtain ⟨_, c₄, hassign, hvalue⟩ := bind_ok he'
    have h₃ := h₂.trans (.take h₂.at_end (mark_takes hassign))
    obtain ⟨hlast, hread, -⟩ := he h₃.at_end hvalue
    refine ⟨?_, hread⟩
    simpa [Stmt.tokens, Stmt.nodes, s] using h₃.trans hlast
  · exact ⟨h₂.read, rfl⟩

theorem condition_placed (he : PlacedUpTo 5 expression) :
    Placed (conditionWith expression) conditionTokens
      (fun ts _ e => e.nodes (ts ++ [.mark .openParen])) (fun _ => true) := by
  intro text ts c e c' hc h
  obtain ⟨_, c₁, hopen, h⟩ := bind_ok h
  obtain ⟨e, c₂, hvalue, h⟩ := bind_ok h
  obtain ⟨_, c₃, hclose, h⟩ := bind_ok h
  obtain ⟨rfl, rfl⟩ := pure_ok h
  have h₁ := Trip.take hc (mark_takes hopen)
  have h₂ := h₁.trans (he h₁.at_end hvalue).1
  have h₃ := h₂.trans (.take h₂.at_end (mark_takes hclose))
  refine ⟨?_, by rw [(mark_takes hclose).stop]; rfl⟩
  simpa [conditionTokens] using h₃

theorem loop_placed (he : PlacedUpTo 5 expression)
    (hs : Placed statement Stmt.tokens Stmt.nodes Stmt.leavesGap) :
    Placed (loopWith expression statement) Stmt.tokens Stmt.nodes Stmt.leavesGap := by
  intro text ts c s c' hc h
  obtain ⟨pos, _, hpos, h⟩ := bind_ok h
  cases hpos
  obtain ⟨_, c₁, hkey, h⟩ := bind_ok h
  obtain ⟨condition, c₂, hcond, h⟩ := bind_ok h
  obtain ⟨body, c₃, hbody, h⟩ := bind_ok h
  obtain ⟨rfl, rfl⟩ := pure_ok h
  let s := Stmt.loop condition body c.start
  have h₁ := Trip.begin (n := ⟨"WHILE", c.start, ts, s.tokens, false⟩) hc (keyword_takes hkey)
    rfl rfl
  have h₂ := h₁.trans (condition_placed he h₁.at_end hcond).1
  obtain ⟨hlast, hread⟩ := body_placed hs h₂.at_end hbody
  refine ⟨?_, hread⟩
  simpa [Stmt.tokens, Stmt.nodes, conditionTokens, s] using h₂.trans hlast

theorem branch_placed (he : PlacedUpTo 5 expression)
    (hs : Placed statement Stmt.tokens Stmt.nodes Stmt.leavesGap) :
    Placed (branchWith expression statement) Stmt.tokens Stmt.nodes Stmt.leavesGap := by
  intro text ts c s c' hc h
  obtain ⟨pos, _, hpos, h⟩ := bind_ok h
  cases hpos
  obtain ⟨_, c₁, hkey, h⟩ := bind_ok h
  obtain ⟨condition, c₂, hcond, h⟩ := bind_ok h
  obtain ⟨positive, c₃, hpositive, h⟩ := bind_ok h
  obtain ⟨negative, c₄, hnegative, h⟩ := bind_ok h
  obtain ⟨rfl, rfl⟩ := pure_ok h
  let s := Stmt.branch condition positive negative c.start
  have h₁ := Trip.begin (n := ⟨"IF", c.start, ts, s.tokens, false⟩) hc (keyword_takes hkey)
    rfl rfl
  have h₂ := h₁.trans (condition_placed he h₁.at_end hcond).1
  have h₃ := h₂.trans (body_placed hs h₂.at_end hpositive).1
  rcases optional_cases hnegative with ⟨body, rfl, hb⟩ | ⟨rfl, rfl⟩
  · obtain ⟨_, c₅, helse, hbody⟩ := bind_ok hb
    have h₄ := h₃.trans (.take h₃.at_end (keyword_takes helse))
    obtain ⟨hlast, hread⟩ := body_placed hs h₄.at_end hbody
    refine ⟨?_, hread⟩
    simpa [Stmt.tokens, Stmt.nodes, conditionTokens, s] using h₄.trans hlast
  · refine ⟨?_, rfl⟩
    simpa [Stmt.tokens, Stmt.nodes, conditionTokens, s] using h₃.read

theorem result_placed (he : PlacedUpTo 5 expression) :
    Placed (resultWith expression) Stmt.tokens Stmt.nodes Stmt.leavesGap := by
  intro text ts c s c' hc h
  obtain ⟨pos, _, hpos, h⟩ := bind_ok h
  cases hpos
  obtain ⟨_, c₁, hkey, h⟩ := bind_ok h
  obtain ⟨e, c₂, hvalue, h⟩ := bind_ok h
  obtain ⟨rfl, rfl⟩ := pure_ok h
  have h₁ := Trip.begin (n := ⟨"RETURN", c.start, ts, (Stmt.result e c.start).tokens, false⟩) hc
    (keyword_takes hkey) rfl rfl
  obtain ⟨hlast, hread, -⟩ := he h₁.at_end hvalue
  exact ⟨h₁.trans hlast, hread⟩

theorem assignment_placed (he : PlacedUpTo 5 expression) :
    Placed (assignmentWith expression) Stmt.tokens Stmt.nodes Stmt.leavesGap := by
  intro text ts c s c' hc h
  obtain ⟨pos, _, hpos, h⟩ := bind_ok h
  cases hpos
  obtain ⟨text, c₁, hname, h⟩ := bind_ok h
  obtain ⟨_, c₂, hassign, h⟩ := bind_ok h
  obtain ⟨e, c₃, hvalue, h⟩ := bind_ok h
  obtain ⟨rfl, rfl⟩ := pure_ok h
  have h₁ := Trip.take hc (name_takes hname)
  have h₂ := h₁.trans (.take h₁.at_end (mark_takes hassign))
  obtain ⟨hlast, hread, -⟩ := he h₂.at_end hvalue
  refine ⟨?_, hread⟩
  apply Trip.under _ (hc.stands_here rfl rfl (by simp)) rfl
  simpa [Stmt.tokens] using h₂.trans hlast

theorem expressionStatement_placed (he : PlacedUpTo 5 expression) :
    Placed (expressionStatementWith expression) Stmt.tokens Stmt.nodes Stmt.leavesGap := by
  intro text ts c s c' hc h
  obtain ⟨pos, _, hpos, h⟩ := bind_ok h
  cases hpos
  obtain ⟨e, c₁, hvalue, h⟩ := bind_ok h
  obtain ⟨rfl, rfl⟩ := pure_ok h
  obtain ⟨htrip, hread, -⟩ := he hc hvalue
  exact ⟨htrip.under (hc.stands_here rfl rfl (by simp)) rfl, hread⟩

theorem statementWith_placed (he : PlacedUpTo 5 expression)
    (hs : Placed statement Stmt.tokens Stmt.nodes Stmt.leavesGap) :
    Placed (statementWith expression statement) Stmt.tokens Stmt.nodes Stmt.leavesGap := by
  intro text ts c s c' hc h
  unfold statementWith at h
  split at h
  · exact function_placed hs hc h
  · exact declaration_placed he hc h
  · exact loop_placed he hs hc h
  · exact branch_placed he hs hc h
  · exact result_placed he hc h
  · rcases orElse_ok h with h | h
    · exact assignment_placed he hc h
    · exact expressionStatement_placed he hc h

end Statements

theorem statement_placed (depth : Nat) :
    Placed (statement depth) Stmt.tokens Stmt.nodes Stmt.leavesGap := by
  induction depth with
  | zero =>
    intro text ts c s c' _ h
    cases h
  | succ depth ih => exact statementWith_placed (expression_placed depth) ih

/-! ## Programs -/

theorem program_placed {depth : Nat} {text : List Char} {c c' : Cursor} {p : Program}
    (hc : c.At text []) (h : program depth c = .ok p c') :
    Trip text [] c.readGap p.tokens p.nodes c' := by
  obtain ⟨pos, _, hpos, h⟩ := bind_ok h
  cases hpos
  obtain ⟨_, _, hgap, h⟩ := bind_ok h
  cases hgap
  obtain ⟨statements, c₁, hmany, h⟩ := bind_ok h
  obtain ⟨_, _, hend, h⟩ := bind_ok h
  obtain ⟨rfl, rfl⟩ := pure_ok h
  obtain ⟨-, -, rfl⟩ := endOfText_ok hend
  have hinner := statements_placed (statement_placed depth) hc hmany
  have hblock := hinner.under
    (n := ⟨"BLOCK", c.start, [], Stmt.tokensOfAll statements, false⟩)
    (hc.stands_start rfl rfl) rfl
  exact hblock.double rfl rfl rfl

/-- The node begins where its tokens do, or with blanks only up to there if it lags. A node that has
no tokens begins at what ends it, a closing brace or the end of the text. -/
def Node.Follows (n : Node) (text : List Char) : Prop :=
  ∃ front blanks left after, n.pos = Position.start.advance front ∧
    text = front ++ (blanks ++ behindGap left) ∧ Blank blanks ∧ (n.lags = false → blanks = []) ∧
    LexedTo n.before text left ∧ LexedTo n.tokens left after ∧
    (n.tokens = [] → behindGap left = [] ∨
      ∃ rest, Token.read? (behindGap left) = some (.mark .closeBrace, rest))

theorem Node.Stands.follows {n : Node} {text : List Char} {p : Program} (h : n.Stands text)
    (hn : n.Within p.tokens ∨ n.before = [] ∧ n.tokens = p.tokens) (ht : Lexed p.tokens text) :
    n.Follows text := by
  obtain ⟨front, blanks, left, hbefore, htext, hb, hl, hpos⟩ := h
  obtain ⟨last, hall, hend⟩ := ht.lexedTo
  rcases hn with hn | ⟨hnil, hwhole⟩
  · obtain ⟨more, hmore⟩ := hn.begins
    rw [← hmore, List.append_assoc] at hall
    obtain ⟨mid, hfirst, hrest⟩ := hall.split
    obtain rfl := hfirst.unique hbefore
    obtain ⟨after, htokens, -⟩ := hrest.split
    refine ⟨front, blanks, mid, after, hpos, htext, hb, hl, hbefore, htokens, fun hempty => ?_⟩
    -- behind the tokens before it comes the closing brace
    obtain ⟨others, hothers⟩ := hn.closed hempty
    have hclosing := ht.lexedTo
    rw [← hothers, List.append_assoc] at hclosing
    obtain ⟨_, hall, -⟩ := hclosing
    obtain ⟨mid', hfirst', hlast⟩ := hall.split
    obtain rfl := hfirst'.unique hbefore
    cases hlast with
    | token hread _ => exact .inr ⟨_, hread⟩
  · rw [hnil] at hbefore
    cases hbefore
    rw [← hwhole] at hall
    refine ⟨front, blanks, text, last, hpos, htext, hb, hl, hnil ▸ .nil, hall, fun hempty => ?_⟩
    rw [hempty] at hall
    cases hall
    exact .inl hend

/-- The spans of a program that is read follow its text. The nodes of the tree are those of the program,
each where its tokens are; only names, what begins with one, and assignments and expression
statements behind a statement that leaves its gap unread may lag behind the token before them. Going
through the tree, each node before its children, one never goes back in the text; and an operation
has the span of its left operand. -/
theorem spans_follow_text {file : String} {tracing : Bool} {text : String} {d : Datum}
    (h : (Session.readProgram file tracing text).answer = .ok d) :
    ∃ p, readProgram text = .ok p ∧ d = p.toDatum file ∧
      d.nodes.map Datum.label = p.nodes.map Node.label ∧
      (∀ n ∈ p.nodes, n.Follows (Text.expandTabs text.toList)) ∧
      (p.nodes.Pairwise fun m n => m.pos.offset ≤ n.pos.offset) ∧
      ∀ o ∈ d.nodes, o.kind? = some "OPERATION" → o.span? = o.children.head?.bind Datum.span? := by
  obtain ⟨p, hp, rfl⟩ := Session.readProgram_answer h
  obtain ⟨c', hc⟩ := readProgram_ok hp
  have htrip := program_placed (Cursor.ofText_at _) hc
  refine ⟨p, hp, rfl, p.labels file, fun n hn => ?_, htrip.sorted, fun o ho hk => ?_⟩
  · exact (htrip.stands n hn).follows (p.nodes_within n hn) (readProgram_lexed hp).2
  · exact (p.operations file o ho hk).span

/-- A call, and on the next line a sum with a blank before its second operand. -/
theorem call_and_sum_follow :
    ∃ d p, (Session.readProgram "<input>" false "f()\n 1 + x").answer = .ok d ∧
      readProgram "f()\n 1 + x" = .ok p ∧
      ∀ n ∈ p.nodes, n.Follows (Text.expandTabs "f()\n 1 + x".toList) := by
  have hread : ∃ d, (Session.readProgram "<input>" false "f()\n 1 + x").answer = .ok d := ⟨_, rfl⟩
  obtain ⟨d, hd⟩ := hread
  obtain ⟨p, hp, -, -, hfollows, -⟩ := spans_follow_text hd
  exact ⟨d, p, hd, hp, hfollows⟩

/-- Behind a function, an assignment is placed where the function ends, and not where its first token
stands, on the next line. -/
theorem assignment_behind_function :
    ∃ d o, (Session.readProgram "<input>" false "fun f() \x7b \x7d\nx = 1").answer = .ok d ∧
      o ∈ d.nodes ∧ o.kind? = some "ASSIGNMENT" ∧ o.span? = some ⟨"<input>", 1, 12, "x"⟩ ∧
      Position.start.advance ("fun f() \x7b \x7d\nx = 1".toList.take 11) = ⟨11, 1, 12⟩ ∧
      "fun f() \x7b \x7d\nx = 1".toList.drop 11 = "\nx = 1".toList := by
  let body := Body.braced ⟨8, 1, 9⟩ ⟨10, 1, 11⟩ []
  let assignment := Stmt.assignment "x" (.literal "1" ⟨16, 2, 5⟩) ⟨11, 1, 12⟩
  let p : Program := ⟨.start, [.function "f" [] body .start, assignment]⟩
  refine ⟨p.toDatum "<input>", assignment.toDatum "<input>", rfl, ?_, rfl, rfl, by decide,
    by decide⟩
  simp [p, Program.toDatum, Stmt.toData, Stmt.toDatum, Datum.nodes, Datum.nodesOfAll, body,
    assignment]

end Bronti.Syntax
