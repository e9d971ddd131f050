import Bronti.Proofs.Lowering
import Bronti.Proofs.Rewriting

/-!
The grammar of lowered trees: which kind of node may stand in which place. A tree is strict if every
node stands in a place made for it, and blocks hold statements only.
-/
namespace Bronti

/-- The place that a node is made for. -/
inductive Role
  | program
  | block
  | body
  | statement
  | expression
deriving DecidableEq

namespace Ast

def role? : Ast → Option Role
  | program .. => some .program
  | block .. => some .block
  | braced .. => some .body
  | function .. | declaration .. | assignment .. | branch .. | loop .. | result .. |
    statement .. => some .statement
  | operation .. | parens .. | literal .. | reference .. | call .. => some .expression
  | broken .. | hole .. => none

/-- The nodes directly inside a node are made for the places that they stand in; `held` says what
may stand in a block. Defective nodes fit nowhere. -/
def Fits (held : Role → Prop) : Ast → Prop
  | program children _ | braced children _ => ∃ a, children = [a] ∧ a.role? = some .block
  | block statements _ => ∀ a ∈ statements, ∃ r, a.role? = some r ∧ held r
  | function _ _ body _ => body.role? = some .body
  | declaration _ initializer _ => ∀ e ∈ initializer, e.role? = some .expression
  | assignment _ value _ | result value _ | statement value _ | parens value _ =>
    value.role? = some .expression
  | branch condition positive negative _ =>
    condition.role? = some .expression ∧ (∃ a, positive = some a ∧ a.role? = some .body) ∧
      ∀ a ∈ negative, a.role? = some .body
  | loop condition body _ => condition.role? = some .expression ∧ body.role? = some .body
  | operation left op right _ =>
    left.role? = some .expression ∧ right.role? = some .expression ∧
      (Operator.ofSymbol? op).isSome
  | literal .. | reference .. => True
  | call _ args _ => ∀ e ∈ args, e.role? = some .expression
  | broken .. | hole .. => False

/-- Every node of the tree fits where it stands, and blocks hold statements. So programs stand at
the root only, blocks in programs and braces, braces as the bodies of functions, branches and loops,
and expressions where a value is asked for. -/
def Strict (a : Ast) : Prop := ∀ b ∈ a.nodes, b.Fits (· = .statement)

theorem forall_nodes_iff {P : Ast → Prop} {a : Ast} :
    (∀ b ∈ a.nodes, P b) ↔ P a ∧ ∀ b ∈ a.children, ∀ c ∈ b.nodes, P c := by
  constructor
  · exact fun h => ⟨h a (mem_nodes_self a), fun b hb c hc => h c (mem_nodes_of_child hb hc)⟩
  · rintro ⟨ha, hchildren⟩ b hb
    obtain rfl | ⟨d, hd, hb⟩ := mem_nodes.mp hb
    · exact ha
    · exact hchildren d hd b hb

theorem strict_iff {a : Ast} :
    a.Strict ↔ a.Fits (· = .statement) ∧ ∀ b ∈ a.children, b.Strict := forall_nodes_iff

theorem isExpression_iff {a : Ast} : a.isExpression = true ↔ a.role? = some .expression := by
  cases a <;> simp [isExpression, role?]

/-- The nodes inside an expression are expressions. -/
theorem Fits.child_expression {held : Role → Prop} {a b : Ast} (hfit : a.Fits held)
    (hrole : a.role? = some .expression) (hb : b ∈ a.children) : b.role? = some .expression := by
  cases a with
  | operation left op right span =>
    simp only [children, List.mem_cons, List.not_mem_nil, or_false] at hb
    rcases hb with rfl | rfl
    · exact hfit.1
    · exact hfit.2.1
  | parens inner span =>
    rw [List.mem_singleton.mp hb]
    exact hfit
  | call name args span => exact hfit b hb
  | literal | reference => cases hb
  | _ => cases hrole

/-- The nodes inside a statement are expressions and bodies. -/
theorem Fits.child_statement {held : Role → Prop} {a b : Ast} (hfit : a.Fits held)
    (hrole : a.role? = some .statement) (hb : b ∈ a.children) :
    b.role? = some .expression ∨ b.role? = some .body := by
  cases a with
  | function name params body span =>
    rw [List.mem_singleton.mp hb]
    exact .inr hfit
  | declaration name initializer span => exact .inl (hfit b (by simpa [children] using hb))
  | assignment name value span | result value span | statement value span =>
    rw [List.mem_singleton.mp hb]
    exact .inl hfit
  | branch condition positive negative span =>
    obtain ⟨hc, ⟨p, rfl, hp⟩, hn⟩ := hfit
    simp only [children, Option.toList_some, List.mem_cons, List.mem_append, Option.mem_toList,
      List.not_mem_nil, or_false] at hb
    rcases hb with rfl | rfl | hb
    · exact .inl hc
    · exact .inr hp
    · exact .inr (hn b hb)
  | loop condition body span =>
    simp only [children, List.mem_cons, List.not_mem_nil, or_false] at hb
    rcases hb with rfl | rfl
    · exact .inl hfit.1
    · exact .inr hfit.2
  | _ => cases hrole

end Ast

namespace Lowers

variable {d : Datum} {a : Ast}

theorem role_expression (h : Lowers d a) (hkind : d.OneOf Lowering.expressionKinds) :
    a.role? = some .expression := by
  obtain ⟨k, hk, hd⟩ := hkind
  cases h <;> cases hd <;> first | rfl | simp [Lowering.expressionKinds] at hk

theorem role_block (h : Lowers d a) (hkind : d.OneOf ["BLOCK"]) : a.role? = some .block := by
  obtain ⟨k, hk, hd⟩ := hkind
  cases h <;> cases hd <;> first | rfl | simp at hk

theorem role_body (h : Lowers d a) (hkind : d.OneOf ["BRACED_BLOCK"]) : a.role? = some .body := by
  obtain ⟨k, hk, hd⟩ := hkind
  cases h <;> cases hd <;> first | rfl | simp at hk

theorem exists_role (h : Lowers d a) : ∃ r, a.role? = some r := by
  cases h <;> exact ⟨_, rfl⟩

theorem of_mem {ds : List Datum} {as : List Ast} (h : List.Forall₂ Lowers ds as) (ha : a ∈ as) :
    ∃ d ∈ ds, Lowers d a := by
  induction h with
  | nil => cases ha
  | cons hd _ ih =>
    rcases List.mem_cons.mp ha with rfl | ha
    · exact ⟨_, by simp, hd⟩
    · obtain ⟨e, he, hea⟩ := ih ha
      exact ⟨e, by simp [he], hea⟩

/-- The nodes inside a tree are what the children of the datum are lowered to, in order. -/
theorem children (h : Lowers d a) : List.Forall₂ Lowers d.children a.children := by
  cases h with
  | block inner _ | call _ inner _ => exact inner
  | program inner _ | braced inner _ | function _ _ _ _ inner _ | initialized _ inner _
  | assignment _ inner _ | result inner _ | statement inner _ | parens inner _ =>
    exact .cons inner .nil
  | branch condition positive _ _ | loop condition positive _ _ =>
    exact .cons condition (.cons positive .nil)
  | operation _ left right _ _ => exact .cons left (.cons right .nil)
  | alternative condition positive negative _ _ _ =>
    exact .cons condition (.cons positive (.cons negative .nil))
  | declaration | literal | reference => exact .nil

/-- A node inside a tree is what a child of the datum is lowered to. -/
theorem child (h : Lowers d a) {b : Ast} (hb : b ∈ a.children) : ∃ e ∈ d.children, Lowers e b :=
  of_mem h.children hb

/-- What lowering gives fits, whatever else than an expression may stand in a block. -/
theorem fits (h : Lowers d a) : a.Fits (· ≠ .expression) := by
  cases h with
  | program inner kind | braced inner kind => exact ⟨_, rfl, inner.role_block kind⟩
  | block inner statements =>
    intro b hb
    obtain ⟨e, _, he⟩ := of_mem inner hb
    obtain ⟨r, hr⟩ := he.exists_role
    refine ⟨r, hr, ?_⟩
    rintro rfl
    simpa [statements b hb] using Ast.isExpression_iff.mpr hr
  | function _ _ _ _ inner kind => exact inner.role_body kind
  | declaration => exact fun _ he => nomatch he
  | initialized _ inner kind => simpa [Ast.Fits] using inner.role_expression kind
  | assignment _ inner kind | result inner kind | statement inner kind | parens inner kind =>
    exact inner.role_expression kind
  | branch condition positive kind kind_positive =>
    exact ⟨condition.role_expression kind, ⟨_, rfl, positive.role_body kind_positive⟩, by simp⟩
  | alternative condition positive negative kind kind_positive kind_negative =>
    refine ⟨condition.role_expression kind, ⟨_, rfl, positive.role_body kind_positive⟩, ?_⟩
    simpa using negative.role_body kind_negative
  | loop condition body kind kind_body =>
    exact ⟨condition.role_expression kind, body.role_body kind_body⟩
  | operation known left right kind_left kind_right =>
    exact ⟨left.role_expression kind_left, right.role_expression kind_right, known⟩
  | literal | reference => trivial
  | call _ inner kinds =>
    intro b hb
    obtain ⟨e, he, hlowers⟩ := of_mem inner hb
    exact hlowers.role_expression (kinds e he)

/-- Every node of a tree that lowering gives fits. -/
theorem nodes_fit {d : Datum} {a : Ast} (h : Lowers d a) :
    ∀ b ∈ a.nodes, b.Fits (· ≠ .expression) := by
  rw [Ast.forall_nodes_iff]
  refine ⟨h.fits, fun b hb => ?_⟩
  obtain ⟨e, _, he⟩ := h.child hb
  have := Ast.sizeOf_lt_of_child hb
  exact he.nodes_fit
termination_by sizeOf a

end Lowers

end Bronti
