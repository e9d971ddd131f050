import Bronti.Proofs.Invariants
import Bronti.Proofs.Returning
import Mathlib.Logic.Relation

/-!
The evaluations inside an evaluation. `Asked` lists what the evaluation of a node asks for: nodes
inside it and bodies of functions, each with the state in which its turn comes. What an evaluation
gives depends on nothing else, so that none of them is left out.
-/
namespace Bronti

open Run Eval

/-- The evaluation of the first node, whose visit has left the state `s`, comes to the second one in
the state that is given with it; `rec` evaluates the nodes inside, and a loop has `limit` rounds to
go. -/
inductive Asked (rec : Ast → Run Result) (limit : Nat) (s : State) : Ast → Ast → State → Prop
  | program {a : Ast} {rest : List Ast} {span : Option Span} :
      Asked rec limit s (.program (a :: rest) span) a s
  | block (before : List Ast) {after : List Ast} {a : Ast} {span : Option Span} {t : State}
      (passed : statementsWith rec before s = .done .nothing t) :
      Asked rec limit s (.block (before ++ a :: after) span) a t
  | braced {a : Ast} {rest : List Ast} {span : Option Span} :
      Asked rec limit s (.braced (a :: rest) span) a s.opened
  | initializer {x : String} {e : Ast} {span : Option Span} {t : State}
      (declared : s.declare? x = some t) : Asked rec limit s (.declaration x (some e) span) e t
  | assignment {x : String} {e : Ast} {span : Option Span}
      (defined : Chain.isDefined s.frames x = true) :
      Asked rec limit s (.assignment x e span) e s
  | condition {a : Ast} {positive negative : Option Ast} {span : Option Span} :
      Asked rec limit s (.branch a positive negative span) a s
  | branch {condition a : Ast} {positive negative : Option Ast} {span : Option Span} {b : Bool}
      {t : State} (decided : boolWith rec condition s = .done b t)
      (taken : (if b then positive else negative) = some a) :
      Asked rec limit s (.branch condition positive negative span) a t
  | again {condition body : Ast} {span : Option Span} {left : Nat} {t : State}
      (rounds : Rounds rec condition body limit s (left + 1) t) :
      Asked rec limit s (.loop condition body span) condition t
  | round {condition body : Ast} {span : Option Span} {left : Nat} {t u : State}
      (rounds : Rounds rec condition body limit s (left + 1) t)
      (again : boolWith rec condition t = .done true u) :
      Asked rec limit s (.loop condition body span) body u
  | result {e : Ast} {span : Option Span} : Asked rec limit s (.result e span) e s
  | statement {e : Ast} {span : Option Span} : Asked rec limit s (.statement e span) e s
  | left {left right : Ast} {op : String} {span : Option Span} {o : Operator}
      (known : Operator.ofSymbol? op = some o) :
      Asked rec limit s (.operation left op right span) left s
  | integer {left right : Ast} {op : String} {span : Option Span} {o : Operator} {n : Int}
      {t : State} (known : Operator.ofSymbol? op = some o) (kind : o.operandKind = .integer)
      (first : intWith rec left s = .done n t) :
      Asked rec limit s (.operation left op right span) right t
  | boolean {left right : Ast} {op : String} {span : Option Span} {o : Operator} {b : Bool}
      {t : State} (known : Operator.ofSymbol? op = some o) (kind : o.operandKind = .boolean)
      (first : boolWith rec left s = .done b t) :
      Asked rec limit s (.operation left op right span) right t
  | parens {e : Ast} {span : Option Span} : Asked rec limit s (.parens e span) e s
  | argument {x : String} (before : List Ast) {after : List Ast} {a : Ast} {span : Option Span}
      {ns : List Int} {t : State} (passed : intsWith rec before s = .done ns t) :
      Asked rec limit s (.call x (before ++ a :: after) span) a t
  | body {x : String} {args : List Ast} {span : Option Span} {ns : List Int} {f : Function}
      {t u : State} (given : intsWith rec args s = .done ns t)
      (found : Chain.function? t.frames x = some f) (length : f.params.length = ns.length)
      (bound : bindParams f.params ns t.opened = .done () u) :
      Asked rec limit s (.call x args span) f.body u

/-! ## Nothing else is asked for -/

section Complete

variable {α β : Type} {rec rec' : Ast → Run Result} {a : Ast} {s t u : State}

theorem bind_congr {m m' : Run α} {f f' : α → Run β} (hm : m' s = m s)
    (hf : ∀ x t, m s = .done x t → f' x t = f x t) : (m' >>= f') s = (m >>= f) s := by
  change Run.bind m' f' s = Run.bind m f s
  unfold Run.bind
  rw [hm]
  cases h : m s with
  | done x t => exact hf x t h
  | stopped e t => rfl
  | unfinished => rfl

theorem int_congr (h : rec' a s = rec a s) : intWith rec' a s = intWith rec a s :=
  bind_congr h fun _ _ _ => rfl

theorem bool_congr (h : rec' a s = rec a s) : boolWith rec' a s = boolWith rec a s :=
  bind_congr h fun _ _ _ => rfl

theorem inFrame_congr {m m' : Run α} (h : m' s.opened = m s.opened) :
    inFrame m' s = inFrame m s := by
  unfold inFrame
  rw [h]

theorem statements_concat {before : List Ast} {r : Result}
    (hpassed : statementsWith rec before s = .done .nothing t) (hr : rec a t = .done r u)
    (hstays : ∀ n, r ≠ .returned n) : statementsWith rec (before ++ [a]) s = .done .nothing u := by
  rw [statements_append [a] hpassed, statementsWith, bind_of_done hr]
  cases r with
  | returned n => exact absurd rfl (hstays n)
  | nothing | int _ | bool _ => rfl

/-- Statements give what they give if those agree whose turn comes. -/
theorem statements_congr (before as : List Ast) {span : Option Span} {limit : Nat}
    (h : ∀ b t, Asked rec limit s (.block (before ++ as) span) b t → rec' b t = rec b t)
    (hpassed : statementsWith rec before s = .done .nothing t) :
    statementsWith rec' as t = statementsWith rec as t := by
  induction as generalizing before t with
  | nil => rfl
  | cons a as ih =>
    refine bind_congr (h a t (.block before hpassed)) fun r u hr => ?_
    have hrest (hstays : ∀ n, r ≠ .returned n) :
        statementsWith rec' as u = statementsWith rec as u :=
      ih (before ++ [a]) (by simpa using h) (statements_concat hpassed hr hstays)
    cases r with
    | returned n => rfl
    | nothing | int _ | bool _ => exact hrest (by simp)

theorem Rounds.concat {condition body : Ast} {limit left : Nat} {v : State} {r : Result}
    (h : Rounds rec condition body limit s (left + 1) t)
    (again : boolWith rec condition t = .done true u) (round : rec body u = .done r v)
    (stays : ∀ n, r ≠ .returned n) : Rounds rec condition body limit s left v := by
  -- rounds are counted from the first one on, and the new one comes behind the last
  generalize hk : left + 1 = k at h
  induction h with
  | none =>
    subst hk
    exact .more again round stays .none
  | more again' round' stays' _ ih => exact .more again' round' stays' (ih again hk)

theorem loop_congr {condition body : Ast} {span : Option Span} {limit left : Nat}
    (h : ∀ b t, Asked rec limit s (.loop condition body span) b t → rec' b t = rec b t)
    (hrounds : Rounds rec condition body limit s left t) :
    loopWith rec' condition body left t = loopWith rec condition body left t := by
  induction left generalizing t with
  | zero => rfl
  | succ left ih =>
    refine bind_congr (bool_congr (h condition t (.again hrounds))) fun b u hb => ?_
    cases b with
    | false => rfl
    | true =>
      refine bind_congr (h body u (.round hrounds hb)) fun r v hr => ?_
      have hrest (hstays : ∀ n, r ≠ .returned n) :
          loopWith rec' condition body left v = loopWith rec condition body left v :=
        ih (hrounds.concat hb hr hstays)
      cases r with
      | returned n => rfl
      | nothing | int _ | bool _ => exact hrest (by simp)

theorem ints_concat {before : List Ast} {ns : List Int} {n : Int}
    (hpassed : intsWith rec before s = .done ns t) (hn : intWith rec a t = .done n u) :
    intsWith rec (before ++ [a]) s = .done (ns ++ [n]) u := by
  induction before generalizing s ns with
  | nil =>
    cases hpassed
    exact (bind_of_done hn).trans rfl
  | cons b before ih =>
    obtain ⟨k, v, hk, hrest⟩ := done_of_bind hpassed
    obtain ⟨ks, w, hks, hlast⟩ := done_of_bind hrest
    cases hlast
    exact (bind_of_done hk).trans ((bind_of_done (ih hks)).trans rfl)

theorem ints_congr (before as : List Ast) {ns : List Int} {x : String} {span : Option Span}
    {limit : Nat}
    (h : ∀ b t, Asked rec limit s (.call x (before ++ as) span) b t → rec' b t = rec b t)
    (hpassed : intsWith rec before s = .done ns t) : intsWith rec' as t = intsWith rec as t := by
  induction as generalizing before ns t with
  | nil => rfl
  | cons a as ih =>
    refine bind_congr (int_congr (h a t (.argument before hpassed))) fun n u hn => ?_
    have hrest : intsWith rec' as u = intsWith rec as u :=
      ih (before ++ [a]) (by simpa using h) (ints_concat hpassed hn)
    exact bind_congr hrest fun _ _ _ => rfl

theorem operation_congr {left right : Ast} {op : String} {span : Option Span} {limit : Nat}
    (h : ∀ b t, Asked rec limit s (.operation left op right span) b t → rec' b t = rec b t) :
    operationWith rec' left op right span s = operationWith rec left op right span s := by
  unfold operationWith
  cases ho : Operator.ofSymbol? op with
  | none => rfl
  | some o =>
    have hleft : rec' left s = rec left s := h left s (.left ho)
    dsimp only
    cases hm : o.meaning with
    | arithmetic f | comparison f =>
      have hkind : o.operandKind = .integer := by simp [Operator.operandKind, hm]
      refine bind_congr (int_congr hleft) fun n t hn => ?_
      exact bind_congr (int_congr (h right t (.integer ho hkind hn))) fun _ _ _ => rfl
    | logical f =>
      have hkind : o.operandKind = .boolean := by simp [Operator.operandKind, hm]
      refine bind_congr (bool_congr hleft) fun b t hb => ?_
      exact bind_congr (bool_congr (h right t (.boolean ho hkind hb))) fun _ _ _ => rfl

theorem call_congr {x : String} {args : List Ast} {span : Option Span} {limit : Nat}
    (h : ∀ b t, Asked rec limit s (.call x args span) b t → rec' b t = rec b t) :
    callWith rec' x args span s = callWith rec x args span s := by
  refine bind_congr (ints_congr [] args h rfl) fun ns t hns => ?_
  refine bind_congr rfl fun found u hfound => ?_
  cases found with
  | none => rfl
  | some f =>
    obtain ⟨hf, rfl⟩ : Chain.function? t.frames x = some f ∧ t = u := by
      simpa [function?] using hfound
    dsimp only
    split
    · next hlen =>
      have hbody : (do bindParams f.params ns; rec' f.body) t.opened =
          (do bindParams f.params ns; rec f.body) t.opened :=
        bind_congr rfl fun _ u hu => h f.body u (.body hns hf hlen hu)
      exact bind_congr (inFrame_congr hbody) fun _ _ _ => rfl
    · rfl

/-- What a node gives depends on nothing but what its evaluation asks for: another way to evaluate
the nodes inside makes no difference to it if it agrees there. -/
theorem node_congr {limit : Nat} (h : ∀ b t, Asked rec limit s a b t → rec' b t = rec b t) :
    nodeWith rec' limit a s = nodeWith rec limit a s := by
  cases a with
  | program children span =>
    cases children with
    | nil => rfl
    | cons a rest => exact bind_congr (h a s .program) fun _ _ _ => rfl
  | block statements span => exact statements_congr [] statements h rfl
  | braced children span =>
    cases children with
    | nil => rfl
    | cons a rest => exact inFrame_congr (h a s.opened .braced)
  | function x params body span => rfl
  | declaration x e span =>
    refine bind_congr rfl fun made t ht => ?_
    cases made with
    | false => rfl
    | true =>
      cases e with
      | none => rfl
      | some e =>
        have he : rec' e t = rec e t := h e t (.initializer (some_of_attempt ht))
        exact bind_congr (int_congr he) fun _ _ _ => rfl
  | assignment x e span =>
    refine bind_congr rfl fun defined t ht => ?_
    cases defined with
    | false => rfl
    | true =>
      obtain ⟨hdefined, rfl⟩ : Chain.isDefined s.frames x = true ∧ s = t := by
        simpa [isDefined] using ht
      exact bind_congr (int_congr (h e s (.assignment hdefined))) fun _ _ _ => rfl
  | branch condition positive negative span =>
    refine bind_congr (bool_congr (h condition s .condition)) fun b t hb => ?_
    cases b with
    | true =>
      cases positive with
      | none => rfl
      | some a => exact h a t (.branch hb rfl)
    | false =>
      cases negative with
      | none => rfl
      | some a => exact h a t (.branch hb rfl)
  | loop condition body span => exact loop_congr h .none
  | result e span => exact bind_congr (int_congr (h e s .result)) fun _ _ _ => rfl
  | statement e span => exact bind_congr (h e s .statement) fun _ _ _ => rfl
  | operation left op right span => exact operation_congr h
  | parens e span => exact h e s .parens
  | literal text span => rfl
  | reference x span => rfl
  | call x args span => exact call_congr h
  | broken kind f span => rfl
  | hole f => rfl

end Complete

/-! ## What is evaluated on the way -/

/-- The evaluation of the node at the first point comes to the second point; the nodes inside have a
step less. -/
inductive Point.Asks : Point → Point → Prop
  | mk {steps : Nat} {a b : Ast} {s t : State}
      (asked : Asked (eval steps) steps (s.visit a) a b t) : Asks ⟨steps + 1, a, s⟩ ⟨steps, b, t⟩

/-- The run of the tree as a program comes to the point, be it in any depth. -/
def Ast.Evaluates (tree : Ast) (steps : Nat) (tracing : Bool) (p : Point) : Prop :=
  ∃ a ∈ tree.children.head?, Relation.ReflTransGen Point.Asks ⟨steps, a, .initial tracing⟩ p

namespace Invariant

variable {I : Invariant} {steps limit : Nat} {a b : Ast} {s t : State} {p q : Point}

theorem rounds {rec : Ast → Run Result} (hr : I.Respected rec) {condition body : Ast} {left : Nat}
    (h : Rounds rec condition body limit s left t) (hc : I.tree condition) (hb : I.tree body)
    (hs : I.state s) : I.state t := by
  induction h with
  | none => exact hs
  | more again round _ _ ih =>
    have hagain := (bool_keeps hr hc _ hs).of_done again
    exact ih ((hr body hb _ hagain.1).of_done round).1

/-- What an evaluation asks for is a tree that there may be, in a state that there may be. -/
theorem asked (h : Asked (eval steps) limit s a b t) (ha : I.tree a) (hs : I.state s) :
    I.tree b ∧ I.state t := by
  have hr := I.eval_keeps steps
  have hchild : ∀ c ∈ a.children, I.tree c := fun c hc => I.child ha hc
  cases h with
  | program | assignment | condition | result | statement | left | parens =>
    exact ⟨hchild b (by simp [Ast.children]), hs⟩
  | block _ passed =>
    rw [Ast.children, List.forall_mem_append, List.forall_mem_cons] at hchild
    exact ⟨hchild.2.1, ((statements_keep hr hchild.1 s hs).of_done passed).1⟩
  | braced => exact ⟨hchild b (by simp [Ast.children]), I.opened hs⟩
  | initializer declared => exact ⟨hchild b (by simp [Ast.children]), I.declared hs declared⟩
  | @branch condition _ positive negative _ taken _ decided hb =>
    have hc : I.tree condition := hchild condition (by simp [Ast.children])
    refine ⟨hchild b ?_, ((bool_keeps hr hc s hs).of_done decided).1⟩
    cases taken <;> simp_all [Ast.children]
  | @again condition body _ _ _ rounds' =>
    have hb : I.tree body := hchild body (by simp [Ast.children])
    have hc : I.tree b := hchild b (by simp [Ast.children])
    exact ⟨hc, rounds hr rounds' hc hb hs⟩
  | @round condition body _ _ u _ rounds' again =>
    have hb : I.tree b := hchild b (by simp [Ast.children])
    have hc : I.tree condition := hchild condition (by simp [Ast.children])
    have hu := rounds hr rounds' hc hb hs
    exact ⟨hb, ((bool_keeps hr hc u hu).of_done again).1⟩
  | @integer left _ _ _ _ _ _ _ _ first =>
    have hl : I.tree left := hchild left (by simp [Ast.children])
    exact ⟨hchild b (by simp [Ast.children]), ((int_keeps hr hl s hs).of_done first).1⟩
  | @boolean left _ _ _ _ _ _ _ _ first =>
    have hl : I.tree left := hchild left (by simp [Ast.children])
    exact ⟨hchild b (by simp [Ast.children]), ((bool_keeps hr hl s hs).of_done first).1⟩
  | argument _ passed =>
    rw [Ast.children, List.forall_mem_append, List.forall_mem_cons] at hchild
    exact ⟨hchild.2.1, ((ints_keep hr hchild.1 s hs).of_done passed).1⟩
  | body given found _ bound =>
    obtain ⟨hu, hns⟩ := (ints_keep hr hchild s hs).of_done given
    exact ⟨I.body hu found, ((bindParams_keeps _ hns _ (I.opened hu)).of_done bound).1⟩

theorem asks (h : p.Asks q) (hp : I.tree p.node) (hs : I.state p.state) :
    I.tree q.node ∧ I.state q.state := by
  cases h with
  | mk h => exact I.asked h hp (I.visited _ hs)

/-- An invariant holds wherever a run comes to. -/
theorem evaluated {tree : Ast} {tracing : Bool} (h : tree.Evaluates steps tracing p)
    (htree : ∀ a ∈ tree.children, I.tree a) (hs : I.state (.initial tracing)) :
    I.tree p.node ∧ I.state p.state := by
  obtain ⟨a, ha, h⟩ := h
  induction h with
  | refl => exact ⟨htree a (List.mem_of_mem_head? ha), hs⟩
  | tail _ hasks ih => exact I.asks hasks ih.1 ih.2

end Invariant

end Bronti
