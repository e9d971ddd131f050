import Bronti.Proofs.Likeness

/-!
Trees changed at every node. `rewrite` makes a change at each node from the leaves up; what a
change does to a tree can be read off what it does to one node.
-/
namespace Bronti

namespace Ast

/-- A node with a change made to each node inside it. -/
def mapChildren (f : Ast → Ast) : Ast → Ast
  | program as span => program (as.map f) span
  | block as span => block (as.map f) span
  | braced as span => braced (as.map f) span
  | function name params body span => function name params (f body) span
  | declaration name initializer span => declaration name (initializer.map f) span
  | assignment name value span => assignment name (f value) span
  | branch condition positive negative span =>
    branch (f condition) (positive.map f) (negative.map f) span
  | loop condition body span => loop (f condition) (f body) span
  | result value span => result (f value) span
  | statement value span => statement (f value) span
  | operation left op right span => operation (f left) op (f right) span
  | parens inner span => parens (f inner) span
  | call name args span => call name (args.map f) span
  | a => a

mutual

/-- A tree with a change made at each node, the nodes inside it being changed first. -/
def rewrite (change : Ast → Ast) : Ast → Ast
  | program as span => change (program (rewriteAll change as) span)
  | block as span => change (block (rewriteAll change as) span)
  | braced as span => change (braced (rewriteAll change as) span)
  | function name params body span => change (function name params (rewrite change body) span)
  | declaration name initializer span =>
    change (declaration name (rewriteOption change initializer) span)
  | assignment name value span => change (assignment name (rewrite change value) span)
  | branch condition positive negative span =>
    change (branch (rewrite change condition) (rewriteOption change positive)
      (rewriteOption change negative) span)
  | loop condition body span => change (loop (rewrite change condition) (rewrite change body) span)
  | result value span => change (result (rewrite change value) span)
  | statement value span => change (statement (rewrite change value) span)
  | operation left op right span =>
    change (operation (rewrite change left) op (rewrite change right) span)
  | parens inner span => change (parens (rewrite change inner) span)
  | literal text span => change (literal text span)
  | reference name span => change (reference name span)
  | call name args span => change (call name (rewriteAll change args) span)
  | broken kind flaw span => change (broken kind flaw span)
  | hole flaw => change (hole flaw)

def rewriteAll (change : Ast → Ast) : List Ast → List Ast
  | [] => []
  | a :: as => rewrite change a :: rewriteAll change as

def rewriteOption (change : Ast → Ast) : Option Ast → Option Ast
  | none => none
  | some a => some (rewrite change a)

end

theorem rewriteAll_eq_map (change : Ast → Ast) (as : List Ast) :
    rewriteAll change as = as.map (rewrite change) := by
  induction as with
  | nil => rfl
  | cons a as ih => simp [rewriteAll, ih]

theorem rewriteOption_eq_map (change : Ast → Ast) (a : Option Ast) :
    rewriteOption change a = a.map (rewrite change) := by
  cases a <;> rfl

theorem rewrite_eq (change : Ast → Ast) (a : Ast) :
    a.rewrite change = change (a.mapChildren (rewrite change)) := by
  cases a <;> simp [rewrite, mapChildren, rewriteAll_eq_map, rewriteOption_eq_map]

theorem children_mapChildren (f : Ast → Ast) (a : Ast) :
    (a.mapChildren f).children = a.children.map f := by
  cases a with
  | declaration _ initializer _ => cases initializer <;> rfl
  | branch _ positive negative _ => cases positive <;> cases negative <;> rfl
  | _ => rfl

theorem span_mapChildren (f : Ast → Ast) (a : Ast) : (a.mapChildren f).span = a.span := by
  cases a <;> rfl

theorem mapChildren_congr {f g : Ast → Ast} {a : Ast} (h : ∀ b ∈ a.children, f b = g b) :
    a.mapChildren f = a.mapChildren g := by
  cases a with
  | declaration _ initializer _ =>
    have hi : initializer.map f = initializer.map g :=
      Option.map_congr fun b hb => h b (by simp [children, hb])
    simp [mapChildren, hi]
  | branch condition positive negative _ =>
    have hp : positive.map f = positive.map g :=
      Option.map_congr fun b hb => h b (by simp [children, hb])
    have hn : negative.map f = negative.map g :=
      Option.map_congr fun b hb => h b (by simp [children, hb])
    simp [mapChildren, h condition (by simp [children]), hp, hn]
  | _ => simp_all [mapChildren, children]

theorem mapChildren_id (a : Ast) : a.mapChildren id = a := by
  cases a <;> simp [mapChildren]

theorem mapChildren_mapChildren (f g : Ast → Ast) (a : Ast) :
    (a.mapChildren f).mapChildren g = a.mapChildren (g ∘ f) := by
  cases a <;> simp [mapChildren]

theorem sizeOf_lt_of_child {a b : Ast} (h : b ∈ a.children) : sizeOf b < sizeOf a := by
  cases a with
  | program as _ | block as _ | braced as _ | call _ as _ =>
    have := List.sizeOf_lt_of_mem (show b ∈ as from h)
    simp only [program.sizeOf_spec, block.sizeOf_spec, braced.sizeOf_spec, call.sizeOf_spec]
    omega
  | declaration _ initializer _ =>
    cases initializer with
    | none => simp [children] at h
    | some e =>
      obtain rfl : b = e := by simpa [children] using h
      simp
      omega
  | branch condition positive negative _ =>
    simp only [children, List.mem_cons, List.mem_append, Option.mem_toList] at h
    rcases h with rfl | h | h
    · simp
      omega
    · rw [Option.mem_def.mp h]
      simp
      omega
    · rw [Option.mem_def.mp h]
      simp
      omega
  | loop _ _ _ | operation _ _ _ _ =>
    simp only [children, List.mem_cons, List.not_mem_nil, or_false] at h
    rcases h with rfl | rfl <;> simp <;> omega
  | function _ _ _ _ | assignment _ _ _ | result _ _ | statement _ _ | parens _ _ =>
    simp only [children, List.mem_singleton] at h
    subst h
    simp
    omega
  | literal _ _ | reference _ _ | broken _ _ _ | hole _ => simp [children] at h

mutual

/-- The nodes of a tree, each before those inside it. -/
def nodes : Ast → List Ast
  | program as span => program as span :: nodesOfAll as
  | block as span => block as span :: nodesOfAll as
  | braced as span => braced as span :: nodesOfAll as
  | function name params body span => function name params body span :: body.nodes
  | declaration name initializer span =>
    declaration name initializer span :: nodesOfOption initializer
  | assignment name value span => assignment name value span :: value.nodes
  | branch condition positive negative span =>
    branch condition positive negative span ::
      (condition.nodes ++ (nodesOfOption positive ++ nodesOfOption negative))
  | loop condition body span => loop condition body span :: (condition.nodes ++ body.nodes)
  | result value span => result value span :: value.nodes
  | statement value span => statement value span :: value.nodes
  | operation left op right span => operation left op right span :: (left.nodes ++ right.nodes)
  | parens inner span => parens inner span :: inner.nodes
  | literal text span => [literal text span]
  | reference name span => [reference name span]
  | call name args span => call name args span :: nodesOfAll args
  | broken kind flaw span => [broken kind flaw span]
  | hole flaw => [hole flaw]

def nodesOfAll : List Ast → List Ast
  | [] => []
  | a :: as => a.nodes ++ nodesOfAll as

def nodesOfOption : Option Ast → List Ast
  | none => []
  | some a => a.nodes

end

theorem nodesOfAll_eq (as : List Ast) : nodesOfAll as = as.flatMap nodes := by
  induction as with
  | nil => rfl
  | cons a as ih => simp [nodesOfAll, ih]

theorem nodesOfOption_eq (a : Option Ast) : nodesOfOption a = a.toList.flatMap nodes := by
  cases a <;> simp [nodesOfOption]

theorem nodes_eq (a : Ast) : a.nodes = a :: a.children.flatMap nodes := by
  cases a <;> simp [nodes, children, nodesOfAll_eq, nodesOfOption_eq]

theorem mem_nodes {a c : Ast} : c ∈ a.nodes ↔ c = a ∨ ∃ b ∈ a.children, c ∈ b.nodes := by
  rw [nodes_eq, List.mem_cons, List.mem_flatMap]

theorem mem_nodes_self (a : Ast) : a ∈ a.nodes := mem_nodes.mpr (.inl rfl)

theorem mem_nodes_of_child {a b c : Ast} (h : b ∈ a.children) (hc : c ∈ b.nodes) : c ∈ a.nodes :=
  mem_nodes.mpr (.inr ⟨b, h, hc⟩)

/-- A property that a change gives to every node, if the nodes inside have it, holds of every node
of a rewritten tree. -/
theorem forall_nodes_rewrite {P : Ast → Prop} {change : Ast → Ast}
    (h : ∀ a, (∀ b ∈ a.children, ∀ c ∈ b.nodes, P c) → ∀ c ∈ (change a).nodes, P c) (a : Ast) :
    ∀ c ∈ (a.rewrite change).nodes, P c := by
  rw [rewrite_eq]
  apply h
  rw [children_mapChildren]
  intro b hb
  obtain ⟨d, hd, rfl⟩ := List.mem_map.mp hb
  have := sizeOf_lt_of_child hd
  exact forall_nodes_rewrite h d
termination_by sizeOf a

/-- The variables that a node names itself, and not by a node inside it. -/
def ownVariables : Ast → List String
  | function _ params _ _ => params
  | declaration name _ _ => [name]
  | assignment name _ _ => [name]
  | reference name _ => [name]
  | _ => []

/-- A node with new names for the variables and for the function that it names itself. -/
def renameOwn (vars funs : String → String) : Ast → Ast
  | function name params body span => function (funs name) (params.map vars) body span
  | declaration name initializer span => declaration (vars name) initializer span
  | assignment name value span => assignment (vars name) value span
  | reference name span => reference (vars name) span
  | call name args span => call (funs name) args span
  | a => a

theorem span_renameOwn (vars funs : String → String) (a : Ast) :
    (a.renameOwn vars funs).span = a.span := by
  cases a <;> rfl

theorem children_renameOwn (vars funs : String → String) (a : Ast) :
    (a.renameOwn vars funs).children = a.children := by
  cases a <;> rfl

theorem renameOwn_id (a : Ast) : a.renameOwn id id = a := by
  cases a <;> simp [renameOwn]

end Ast

theorem forall₂_map_right {α β : Type} {R : α → β → Prop} {f : α → β} {as : List α}
    (h : ∀ a ∈ as, R a (f a)) : List.Forall₂ R as (as.map f) :=
  List.forall₂_map_right_iff.mpr (List.forall₂_same.mpr h)

theorem rel_map_right {α β : Type} {R : α → β → Prop} {f : α → β} {o : Option α}
    (h : ∀ a ∈ o, R a (f a)) : Option.Rel R o (o.map f) := by
  cases o with
  | none => exact .none
  | some a => exact .some (h a rfl)

theorem forall₂_of_map_eq {α β : Type} {R : α → α → Prop} {f : α → β} {as bs : List α}
    (h : as.map f = bs.map f) (hR : ∀ x ∈ as, ∀ y ∈ bs, f x = f y → R x y) :
    List.Forall₂ R as bs := by
  induction bs generalizing as with
  | nil =>
    rw [List.map_eq_nil_iff.mp h]
    exact .nil
  | cons y bs ih =>
    obtain ⟨x, as, rfl, hxy, hmap⟩ := List.map_eq_cons_iff.mp h
    refine .cons (hR x (by simp) y (by simp) hxy) (ih hmap fun u hu v hv => ?_)
    exact hR u (by simp [hu]) v (by simp [hv])

theorem rel_of_map_eq {α β : Type} {R : α → α → Prop} {f : α → β} {o p : Option α}
    (h : o.map f = p.map f) (hR : ∀ x ∈ o, ∀ y ∈ p, f x = f y → R x y) : Option.Rel R o p := by
  cases o <;> cases p <;> simp only [Option.map_some, Option.map_none, reduceCtorEq] at h
  · exact .none
  · exact .some (hR _ rfl _ rfl (Option.some.inj h))

namespace Ast

/-- A node without its span. -/
def withoutSpan : Ast → Ast
  | program as _ => program as none
  | block as _ => block as none
  | braced as _ => braced as none
  | function name params body _ => function name params body none
  | declaration name initializer _ => declaration name initializer none
  | assignment name value _ => assignment name value none
  | branch condition positive negative _ => branch condition positive negative none
  | loop condition body _ => loop condition body none
  | result value _ => result value none
  | statement value _ => statement value none
  | operation left op right _ => operation left op right none
  | parens inner _ => parens inner none
  | literal text _ => literal text none
  | reference name _ => reference name none
  | call name args _ => call name args none
  | broken kind flaw _ => broken kind flaw none
  | hole flaw => hole flaw

/-- A node that declares something where it stands. -/
def isDeclaration : Ast → Bool
  | function .. => true
  | declaration .. => true
  | _ => false

/-- A node whose children are evaluated in a frame of their own. -/
def opensFrame : Ast → Bool
  | braced .. => true
  | _ => false

end Ast

namespace Correspondence

open Ast

variable {World : Type} {c : Correspondence World} {w : World} {a : Ast} {f : Ast → Ast}
  {vars funs : String → String}

/-- A node matches itself with new names and with nodes inside it that correspond to those it had,
in the frame that they are evaluated in. -/
theorem matched_renameOwn (hw : a.isDeclaration = true → c.declares w)
    (hvars : ∀ x ∈ a.ownVariables, c.vars x (vars x)) (hfuns : ∀ x, c.funs x (funs x))
    (hspans : ∀ span, c.spans span span)
    (htree : ∀ b ∈ a.children, c.tree (if a.opensFrame then c.inside w else w) b (f b))
    (hbody : ∀ params body, params = a.ownVariables → body ∈ a.children →
      c.functions ⟨params, body⟩ ⟨params.map vars, f body⟩) :
    c.Matched w a ((a.mapChildren f).renameOwn vars funs) := by
  cases a with
  | program as span => exact .program (forall₂_map_right htree)
  | block as span => exact .block (forall₂_map_right htree)
  | braced as span => exact .braced (forall₂_map_right htree)
  | function name params body span =>
    exact .function (hw rfl) (hfuns name) (hbody params body rfl (by simp [children])) (hspans span)
  | declaration name initializer span =>
    refine .declaration (hw rfl) (hvars name (by simp [ownVariables]))
      (rel_map_right fun b hb => ?_) (hspans span)
    exact htree b (by simpa [children] using hb)
  | assignment name value span =>
    exact .assignment (hvars name (by simp [ownVariables])) (htree value (by simp [children]))
      (hspans span)
  | branch condition positive negative span =>
    refine .branch (htree condition (by simp [children])) (rel_map_right fun b hb => ?_)
      (rel_map_right fun b hb => ?_)
    · exact htree b (by simp [children, Option.mem_def.mp hb])
    · exact htree b (by simp [children, Option.mem_def.mp hb])
  | loop condition body span =>
    exact .loop (htree condition (by simp [children])) (htree body (by simp [children]))
  | result value span => exact .result (htree value (by simp [children]))
  | statement value span => exact .statement (htree value (by simp [children]))
  | operation left op right span =>
    exact .operation (htree left (by simp [children])) (htree right (by simp [children]))
      (hspans span)
  | parens inner span => exact .parens (htree inner (by simp [children]))
  | literal text span => exact .literal (hspans span)
  | reference name span => exact .reference (hvars name (by simp [ownVariables])) (hspans span)
  | call name args span => exact .call (hfuns name) (forall₂_map_right htree) (hspans span)
  | broken kind flaw span => exact .broken
  | hole flaw => exact .hole

/-- Where anything may be declared and the nodes inside correspond in every world, a node matches
itself with new names and with other nodes inside it. -/
theorem matched_mapChildren (hw : c.declares w)
    (hvars : ∀ x ∈ a.ownVariables, c.vars x (vars x)) (hfuns : ∀ x, c.funs x (funs x))
    (hspans : ∀ span, c.spans span span) (htree : ∀ v, ∀ b ∈ a.children, c.tree v b (f b))
    (hbody : ∀ params body, params = a.ownVariables → body ∈ a.children →
      c.functions ⟨params, body⟩ ⟨params.map vars, f body⟩) :
    c.Matched w a ((a.mapChildren f).renameOwn vars funs) :=
  matched_renameOwn (fun _ => hw) hvars hfuns hspans (htree _) hbody

end Correspondence

namespace Likeness

open Ast

theorem eq_unique : Relator.BiUnique (Eq : String → String → Prop) :=
  ⟨fun _ _ _ h h' => h.trans h'.symm, fun _ _ _ h h' => h.symm.trans h'⟩

/-- The likeness of trees that `tree` relates, where names are the same. -/
def sameNames (late : Prop) (spans : Option Span → Option Span → Prop) (tree : Ast → Ast → Prop)
    (span_rel : ∀ {a b : Ast}, tree a b → spans a.span b.span) : Likeness where
  late := late
  vars := Eq
  funs := Eq
  spans := spans
  tree := tree
  vars_unique := eq_unique
  funs_unique := eq_unique
  builtin_iff h := by rw [h]
  span_rel := span_rel

/-- Where names and spans stand for themselves, a node matches itself with other nodes inside it. -/
theorem matched_mapChildren {l : Likeness} {depth : Nat} {a : Ast} {f : Ast → Ast}
    (hvars : ∀ x, l.vars x x) (hfuns : ∀ x, l.funs x x) (hspans : ∀ span, l.spans span span)
    (h : ∀ b ∈ a.children, l.tree b (f b)) :
    l.correspondence.Matched depth a (a.mapChildren f) := by
  have hself : l.correspondence.Matched depth a ((a.mapChildren f).renameOwn id id) := by
    refine Correspondence.matched_mapChildren trivial (fun x _ => hvars x) hfuns hspans
      (fun _ b hb => h b hb) fun params body _ hb => ⟨?_, h body hb⟩
    exact forall₂_map_right fun x _ => hvars x
  rwa [Ast.renameOwn_id] at hself

/-- Where names stand for themselves and spans for any others, nodes match that are the same but for
their spans and for the nodes inside them, which `f` takes to the same if they are alike. -/
theorem matched_of_mapChildren {l : Likeness} {depth : Nat} {a b : Ast} {f : Ast → Ast}
    (hvars : ∀ x, l.vars x x) (hfuns : ∀ x, l.funs x x) (hspans : ∀ s t, l.spans s t)
    (h : ∀ x ∈ a.children, ∀ y ∈ b.children, f x = f y → l.tree x y)
    (heq : (a.mapChildren f).withoutSpan = (b.mapChildren f).withoutSpan) :
    l.correspondence.Matched depth a b := by
  cases a with
  | program as _ =>
    cases b <;> simp only [mapChildren, withoutSpan, reduceCtorEq, program.injEq] at heq
    exact .program (forall₂_of_map_eq heq.1 h)
  | block as _ =>
    cases b <;> simp only [mapChildren, withoutSpan, reduceCtorEq, block.injEq] at heq
    exact .block (forall₂_of_map_eq heq.1 h)
  | braced as _ =>
    cases b <;> simp only [mapChildren, withoutSpan, reduceCtorEq, braced.injEq] at heq
    exact .braced (forall₂_of_map_eq heq.1 h)
  | function _ params body _ =>
    cases b <;> simp only [mapChildren, withoutSpan, reduceCtorEq, function.injEq] at heq
    obtain ⟨rfl, rfl, hbody, -⟩ := heq
    have htree := h _ (by simp [children]) _ (by simp [children]) hbody
    exact .function trivial (hfuns _) ⟨List.forall₂_same.mpr fun x _ => hvars x, htree⟩ (hspans _ _)
  | declaration _ i _ =>
    cases b <;> simp only [mapChildren, withoutSpan, reduceCtorEq, declaration.injEq] at heq
    obtain ⟨rfl, hi, -⟩ := heq
    refine .declaration trivial (hvars _) (rel_of_map_eq hi fun x hx y hy => h x ?_ y ?_)
      (hspans _ _)
    all_goals simp [children, Option.mem_def.mp hx, Option.mem_def.mp hy]
  | assignment _ value _ =>
    cases b <;> simp only [mapChildren, withoutSpan, reduceCtorEq, assignment.injEq] at heq
    obtain ⟨rfl, hv, -⟩ := heq
    exact .assignment (hvars _) (h _ (by simp [children]) _ (by simp [children]) hv) (hspans _ _)
  | branch _ _ _ _ =>
    cases b <;> simp only [mapChildren, withoutSpan, reduceCtorEq, branch.injEq] at heq
    obtain ⟨hc, hp, hn, -⟩ := heq
    refine .branch (h _ (by simp [children]) _ (by simp [children]) hc)
      (rel_of_map_eq hp fun x hx y hy => h x ?_ y ?_)
      (rel_of_map_eq hn fun x hx y hy => h x ?_ y ?_)
    all_goals simp [children, Option.mem_def.mp hx, Option.mem_def.mp hy]
  | loop _ _ _ =>
    cases b <;> simp only [mapChildren, withoutSpan, reduceCtorEq, loop.injEq] at heq
    exact .loop (h _ (by simp [children]) _ (by simp [children]) heq.1)
      (h _ (by simp [children]) _ (by simp [children]) heq.2.1)
  | result _ _ =>
    cases b <;> simp only [mapChildren, withoutSpan, reduceCtorEq, result.injEq] at heq
    exact .result (h _ (by simp [children]) _ (by simp [children]) heq.1)
  | statement _ _ =>
    cases b <;> simp only [mapChildren, withoutSpan, reduceCtorEq, statement.injEq] at heq
    exact .statement (h _ (by simp [children]) _ (by simp [children]) heq.1)
  | operation _ _ _ _ =>
    cases b <;> simp only [mapChildren, withoutSpan, reduceCtorEq, operation.injEq] at heq
    obtain ⟨hl, rfl, hr, -⟩ := heq
    exact .operation (h _ (by simp [children]) _ (by simp [children]) hl)
      (h _ (by simp [children]) _ (by simp [children]) hr) (hspans _ _)
  | parens _ _ =>
    cases b <;> simp only [mapChildren, withoutSpan, reduceCtorEq, parens.injEq] at heq
    exact .parens (h _ (by simp [children]) _ (by simp [children]) heq.1)
  | literal _ _ =>
    cases b <;> simp only [mapChildren, withoutSpan, reduceCtorEq, literal.injEq] at heq
    obtain ⟨rfl, -⟩ := heq
    exact .literal (hspans _ _)
  | reference _ _ =>
    cases b <;> simp only [mapChildren, withoutSpan, reduceCtorEq, reference.injEq] at heq
    obtain ⟨rfl, -⟩ := heq
    exact .reference (hvars _) (hspans _ _)
  | call _ _ _ =>
    cases b <;> simp only [mapChildren, withoutSpan, reduceCtorEq, call.injEq] at heq
    obtain ⟨rfl, hargs, -⟩ := heq
    exact .call (hfuns _) (forall₂_of_map_eq hargs h) (hspans _ _)
  | broken _ _ _ =>
    cases b <;> simp only [mapChildren, withoutSpan, reduceCtorEq, broken.injEq] at heq
    obtain ⟨-, rfl, -⟩ := heq
    exact .broken
  | hole _ =>
    cases b <;> simp only [mapChildren, withoutSpan, reduceCtorEq, hole.injEq] at heq
    exact heq ▸ .hole

end Likeness

end Bronti
