import Bronti.Lowering.Basic
import Mathlib.Data.List.Forall2

/-!
Which tree a datum is lowered to, rule by rule. Lowering succeeds exactly where a rule applies at
every node, and then gives what the rules say, whatever was inspected before.
-/
namespace Bronti

/-- The datum is a node of one of some kinds. -/
def Datum.OneOf (kinds : List String) (d : Datum) : Prop := ∃ k ∈ kinds, d.kind? = some k

open Lowering (expressionKinds)

/-- A datum and the tree that it is lowered to. -/
inductive Lowers : Datum → Ast → Prop
  | program {value d : Datum} {a : Ast} {span : Option Span} (inner : Lowers d a)
      (kind : d.OneOf ["BLOCK"]) : Lowers (.node "PROGRAM" value [d] span) (.program [a] span)
  | block {value : Datum} {ds : List Datum} {as : List Ast} {span : Option Span}
      (inner : List.Forall₂ Lowers ds as) (statements : ∀ a ∈ as, a.isExpression = false) :
      Lowers (.node "BLOCK" value ds span) (.block as span)
  | braced {value d : Datum} {a : Ast} {span : Option Span} (inner : Lowers d a)
      (kind : d.OneOf ["BLOCK"]) : Lowers (.node "BRACED_BLOCK" value [d] span) (.braced [a] span)
  | function {entries : List (String × Datum)} {name : String} {params : List String} {d : Datum}
      {a : Ast} {span : Option Span} (named : Datum.entry? "name" entries = some (.text name))
      (name_ne : name ≠ "")
      (taken : ((Datum.entry? "params" entries).getD (.list [])).elements? =
        some (params.map .text))
      (params_ne : ∀ x ∈ params, x ≠ "") (inner : Lowers d a) (kind : d.OneOf ["BRACED_BLOCK"]) :
      Lowers (.node "FUNCTION_DEF" (.dict entries) [d] span) (.function name params a span)
  | declaration {name : String} {span : Option Span} (name_ne : name ≠ "") :
      Lowers (.node "VARIABLE_DECL" (.text name) [] span) (.declaration name none span)
  | initialized {name : String} {d : Datum} {a : Ast} {span : Option Span} (name_ne : name ≠ "")
      (inner : Lowers d a) (kind : d.OneOf expressionKinds) :
      Lowers (.node "VARIABLE_DECL" (.text name) [d] span) (.declaration name (some a) span)
  | assignment {name : String} {d : Datum} {a : Ast} {span : Option Span} (name_ne : name ≠ "")
      (inner : Lowers d a) (kind : d.OneOf expressionKinds) :
      Lowers (.node "ASSIGNMENT" (.text name) [d] span) (.assignment name a span)
  | branch {value c p : Datum} {a b : Ast} {span : Option Span} (condition : Lowers c a)
      (positive : Lowers p b) (kind : c.OneOf expressionKinds)
      (kind_positive : p.OneOf ["BRACED_BLOCK"]) :
      Lowers (.node "IF" value [c, p] span) (.branch a (some b) none span)
  | alternative {value c p n : Datum} {a b e : Ast} {span : Option Span} (condition : Lowers c a)
      (positive : Lowers p b) (negative : Lowers n e) (kind : c.OneOf expressionKinds)
      (kind_positive : p.OneOf ["BRACED_BLOCK"]) (kind_negative : n.OneOf ["BRACED_BLOCK"]) :
      Lowers (.node "IF" value [c, p, n] span) (.branch a (some b) (some e) span)
  | loop {value c d : Datum} {a b : Ast} {span : Option Span} (condition : Lowers c a)
      (body : Lowers d b) (kind : c.OneOf expressionKinds) (kind_body : d.OneOf ["BRACED_BLOCK"]) :
      Lowers (.node "WHILE" value [c, d] span) (.loop a b span)
  | result {value d : Datum} {a : Ast} {span : Option Span} (inner : Lowers d a)
      (kind : d.OneOf expressionKinds) : Lowers (.node "RETURN" value [d] span) (.result a span)
  | statement {value d : Datum} {a : Ast} {span : Option Span} (inner : Lowers d a)
      (kind : d.OneOf expressionKinds) :
      Lowers (.node "EXPRESSION_STATEMENT" value [d] span) (.statement a span)
  | operation {op : String} {l r : Datum} {a b : Ast} {span : Option Span}
      (known : (Operator.ofSymbol? op).isSome) (left : Lowers l a) (right : Lowers r b)
      (kind_left : l.OneOf expressionKinds) (kind_right : r.OneOf expressionKinds) :
      Lowers (.node "OPERATION" (.text op) [l, r] span) (.operation a op b span)
  | parens {value d : Datum} {a : Ast} {span : Option Span} (inner : Lowers d a)
      (kind : d.OneOf expressionKinds) :
      Lowers (.node "PARENTHESIZED" value [d] span) (.parens a span)
  | literal {value : Datum} {span : Option Span} :
      Lowers (.node "LITERAL" value [] span) (.literal value.plain span)
  | reference {name : String} {span : Option Span} (name_ne : name ≠ "") :
      Lowers (.node "IDENTIFIER" (.text name) [] span) (.reference name span)
  | call {name : String} {ds : List Datum} {as : List Ast} {span : Option Span}
      (name_ne : name ≠ "") (inner : List.Forall₂ Lowers ds as) (kinds : ∀ d ∈ ds, d.OneOf expressionKinds) :
      Lowers (.node "FUNCTION_CALL" (.text name) ds span) (.call name as span)

theorem Lowers.kind {d : Datum} {a : Ast} (h : Lowers d a) : d.kind? = some a.kind := by
  cases h <;> rfl

namespace Lowering

/-- A datum as a part of a node. -/
def part (d : Datum) : Part := ⟨d, lower d⟩

theorem lowerParts_eq (ds : List Datum) : lowerParts ds = ds.map part := by
  induction ds with
  | nil => rfl
  | cons d ds ih => simp [lowerParts, ih, part]

variable {α β : Type}

/-- The lowering comes to an answer once. -/
def Gives (m : Lowering α) (a : α) : Prop := ∃ i j, m i = (.ok a, j)

/-- The lowering comes to an answer, whatever was inspected before. -/
def Yields (m : Lowering α) (a : α) : Prop := ∀ i, ∃ j, m i = (.ok a, j)

/-! ## What an answer comes from -/

section Answers

variable {m : Lowering α} {f : α → Lowering β}

theorem gives_bind {b : β} (h : Gives (m >>= f) b) : ∃ a, Gives m a ∧ Gives (f a) b := by
  obtain ⟨i, j, h⟩ := h
  change Lowering.bind m f i = _ at h
  unfold Lowering.bind at h
  split at h
  · next a k hm => exact ⟨a, ⟨i, k, hm⟩, k, j, h⟩
  · cases h

theorem gives_pure {a b : α} (h : Gives (pure a : Lowering α) b) : b = a := by
  obtain ⟨i, j, h⟩ := h
  cases h
  rfl

theorem gives_map {g : α → β} {b : β} (h : Gives (do return g (← m)) b) :
    ∃ a, Gives m a ∧ b = g a := by
  obtain ⟨a, hm, h⟩ := gives_bind h
  exact ⟨a, hm, gives_pure h⟩

theorem not_gives_fail {d : Defect} {a : α} : ¬ Gives (fail d) a := by
  rintro ⟨i, j, h⟩
  cases h

theorem not_gives_reject {c : Complaint} {span : Option Span} {a : α} :
    ¬ Gives (reject c span) a := not_gives_fail

end Answers

theorem gives_ofKind {allowed : List String} {d : Datum} {a : Ast}
    (h : Gives (ofKind allowed (part d)) a) : Gives (lower d) a ∧ d.OneOf allowed := by
  unfold ofKind at h
  split at h
  · next kind value children span hd =>
    split at h
    · next hk => exact ⟨h, kind, hk, congrArg Datum.kind? hd⟩
    · exact absurd h not_gives_reject
  · exact absurd h not_gives_fail

theorem gives_expressions {ds : List Datum} {as : List Ast}
    (h : Gives (expressions (ds.map part)) as) :
    List.Forall₂ (fun d a => Gives (lower d) a) ds as ∧ ∀ d ∈ ds, d.OneOf expressionKinds := by
  induction ds generalizing as with
  | nil =>
    rw [gives_pure h]
    exact ⟨.nil, by simp⟩
  | cons d ds ih =>
    obtain ⟨a, ha, h⟩ := gives_bind h
    obtain ⟨as', has, h⟩ := gives_bind h
    obtain ⟨hd, hkind⟩ := gives_ofKind ha
    obtain ⟨hds, hkinds⟩ := ih has
    rw [gives_pure h]
    exact ⟨.cons hd hds, List.forall_mem_cons.mpr ⟨hkind, hkinds⟩⟩

theorem gives_every {ds : List Datum} {as : List Ast} (h : Gives (every (ds.map part)) as) :
    List.Forall₂ (fun d a => Gives (lower d) a) ds as := by
  induction ds generalizing as with
  | nil =>
    rw [gives_pure h]
    exact .nil
  | cons d ds ih =>
    obtain ⟨a, ha, h⟩ := gives_bind h
    obtain ⟨as', has, h⟩ := gives_bind h
    rw [gives_pure h]
    exact .cons ha (ih has)

theorem gives_onlyStatements {as : List Ast} {u : Unit} (h : Gives (onlyStatements as) u) :
    ∀ a ∈ as, a.isExpression = false := by
  induction as with
  | nil => simp
  | cons a as ih =>
    unfold onlyStatements at h
    split at h
    · exact absurd h not_gives_reject
    · next ha => simpa [ha] using ih h

theorem gives_only {kind : String} {ds : List Datum} {span : Option Span} {p : Part}
    (h : Gives (only kind (ds.map part) span) p) : ∃ d, ds = [d] ∧ p = part d := by
  match ds with
  | [d] => exact ⟨d, rfl, gives_pure h⟩
  | [] | _ :: _ :: _ => exact absurd h not_gives_reject

theorem gives_both {kind : String} {ds : List Datum} {span : Option Span} {q : Part × Part}
    (h : Gives (both kind (ds.map part) span) q) : ∃ d e, ds = [d, e] ∧ q = (part d, part e) := by
  match ds with
  | [d, e] => exact ⟨d, e, rfl, gives_pure h⟩
  | [] | [_] | _ :: _ :: _ :: _ => exact absurd h not_gives_reject

theorem gives_countWithin {kind : String} {least most : Nat} {ds : List Datum} {span : Option Span}
    {u : Unit} (h : Gives (countWithin kind least most (ds.map part) span) u) :
    least ≤ ds.length ∧ ds.length ≤ most := by
  unfold countWithin at h
  split at h
  · next hn => simpa using hn
  · exact absurd h not_gives_reject

theorem gives_name {kind : String} {span : Option Span} {d : Datum} {x : String}
    (h : Gives (name kind span d) x) : d = .text x ∧ x ≠ "" := by
  unfold name at h
  split at h
  · split at h
    · exact absurd h not_gives_reject
    · next hx =>
      rw [gives_pure h]
      exact ⟨rfl, by simpa using hx⟩
  · exact absurd h not_gives_reject

theorem gives_names {kind : String} {span : Option Span} {ds : List Datum} {xs : List String}
    (h : Gives (names kind span ds) xs) : ds = xs.map .text ∧ ∀ x ∈ xs, x ≠ "" := by
  induction ds generalizing xs with
  | nil =>
    rw [gives_pure h]
    simp
  | cons d ds ih =>
    obtain ⟨x, hx, h⟩ := gives_bind h
    obtain ⟨xs', hxs, h⟩ := gives_bind h
    obtain ⟨hd, hne⟩ := gives_name hx
    obtain ⟨hds, hall⟩ := ih hxs
    rw [gives_pure h, hd, hds]
    simpa [hne] using hall

theorem gives_elements {d : Datum} {ds : List Datum} (h : Gives (elements d) ds) :
    d.elements? = some ds := by
  unfold elements at h
  split at h
  · next hd => rw [hd, gives_pure h]
  · exact absurd h not_gives_fail

theorem gives_operator {span : Option Span} {d : Datum} {op : String}
    (h : Gives (operator span d) op) : d = .text op ∧ (Operator.ofSymbol? op).isSome := by
  unfold operator at h
  split at h
  · split at h
    · next ho =>
      rw [gives_pure h]
      exact ⟨rfl, ho⟩
    · exact absurd h not_gives_reject
  · exact absurd h not_gives_reject

theorem gives_innerBlock {kind : String} {ds : List Datum} {span : Option Span} {a : Ast}
    (h : Gives (innerBlock kind (ds.map part) span) a) :
    ∃ d, ds = [d] ∧ Gives (lower d) a ∧ d.OneOf ["BLOCK"] := by
  obtain ⟨p, hp, h⟩ := gives_bind h
  obtain ⟨d, rfl, rfl⟩ := gives_only hp
  exact ⟨d, rfl, gives_ofKind h⟩

theorem gives_onlyExpression {kind : String} {ds : List Datum} {span : Option Span} {a : Ast}
    (h : Gives (onlyExpression kind (ds.map part) span) a) :
    ∃ d, ds = [d] ∧ Gives (lower d) a ∧ d.OneOf expressionKinds := by
  obtain ⟨p, hp, h⟩ := gives_bind h
  obtain ⟨d, rfl, rfl⟩ := gives_only hp
  exact ⟨d, rfl, gives_ofKind h⟩

section Sound

variable {value : Datum} {ds : List Datum} {span : Option Span} {a : Ast}
  (hds : ∀ d ∈ ds, ∀ a, Gives (lower d) a → Lowers d a)

include hds

theorem forall₂_sound {as : List Ast} (h : List.Forall₂ (fun d a => Gives (lower d) a) ds as) :
    List.Forall₂ Lowers ds as := by
  induction h with
  | nil => exact .nil
  | @cons d a ds as hda _ ih =>
    exact .cons (hds d (by simp) a hda) (ih fun e he => hds e (by simp [he]))

theorem block_sound (h : Gives (block (ds.map part) span) a) :
    Lowers (.node "BLOCK" value ds span) a := by
  obtain ⟨as, has, h⟩ := gives_bind h
  obtain ⟨_, hplain, h⟩ := gives_bind h
  rw [gives_pure h]
  exact .block (forall₂_sound hds (gives_every has)) (gives_onlyStatements hplain)

theorem function_sound (h : Gives (function value (ds.map part) span) a) :
    Lowers (.node "FUNCTION_DEF" value ds span) a := by
  unfold function at h
  split at h
  · next entries =>
    obtain ⟨text, htext, h₁⟩ := gives_bind h
    obtain ⟨es, hes, h₂⟩ := gives_bind h₁
    obtain ⟨params, hparams, h₃⟩ := gives_bind h₂
    obtain ⟨p, hp, h₄⟩ := gives_bind h₃
    obtain ⟨body, hbody, h₅⟩ := gives_bind h₄
    obtain ⟨d, rfl, rfl⟩ := gives_only hp
    obtain ⟨hinner, hkind⟩ := gives_ofKind hbody
    obtain ⟨hnamed, hne⟩ := gives_name htext
    obtain ⟨rfl, hall⟩ := gives_names hparams
    rw [gives_pure h₅]
    refine .function ?_ hne (gives_elements hes) hall (hds d (by simp) _ hinner) hkind
    cases he : Datum.entry? "name" entries with
    | none => simp [he] at hnamed
    | some e => simpa [he] using hnamed
  · exact absurd h not_gives_reject

theorem declaration_sound (h : Gives (declaration value (ds.map part) span) a) :
    Lowers (.node "VARIABLE_DECL" value ds span) a := by
  obtain ⟨text, htext, h₁⟩ := gives_bind h
  obtain ⟨_, hcount, h₂⟩ := gives_bind h₁
  obtain ⟨rfl, hne⟩ := gives_name htext
  have hlength := (gives_countWithin hcount).2
  match ds with
  | [] =>
    rw [gives_pure h₂]
    exact .declaration hne
  | [d] =>
    obtain ⟨e, he, h₃⟩ := gives_bind h₂
    obtain ⟨hinner, hkind⟩ := gives_ofKind he
    rw [gives_pure h₃]
    exact .initialized hne (hds d (by simp) e hinner) hkind
  | _ :: _ :: _ => simp at hlength

theorem assignment_sound (h : Gives (assignment value (ds.map part) span) a) :
    Lowers (.node "ASSIGNMENT" value ds span) a := by
  obtain ⟨text, htext, h₁⟩ := gives_bind h
  obtain ⟨p, hp, h₂⟩ := gives_bind h₁
  obtain ⟨e, he, h₃⟩ := gives_bind h₂
  obtain ⟨rfl, hne⟩ := gives_name htext
  obtain ⟨d, rfl, rfl⟩ := gives_only hp
  obtain ⟨hinner, hkind⟩ := gives_ofKind he
  rw [gives_pure h₃]
  exact .assignment hne (hds d (by simp) e hinner) hkind

theorem branch_sound (h : Gives (branch (ds.map part) span) a) :
    Lowers (.node "IF" value ds span) a := by
  match ds with
  | [c, p] =>
    obtain ⟨condition, hc, h⟩ := gives_bind h
    obtain ⟨positive, hp, h⟩ := gives_bind h
    obtain ⟨hcondition, hkind⟩ := gives_ofKind hc
    obtain ⟨hpositive, hkind'⟩ := gives_ofKind hp
    rw [gives_pure h]
    exact .branch (hds c (by simp) _ hcondition) (hds p (by simp) _ hpositive) hkind hkind'
  | [c, p, n] =>
    obtain ⟨condition, hc, h⟩ := gives_bind h
    obtain ⟨positive, hp, h⟩ := gives_bind h
    obtain ⟨negative, hn, h⟩ := gives_bind h
    obtain ⟨hcondition, hkind⟩ := gives_ofKind hc
    obtain ⟨hpositive, hkind'⟩ := gives_ofKind hp
    obtain ⟨hnegative, hkind''⟩ := gives_ofKind hn
    rw [gives_pure h]
    exact .alternative (hds c (by simp) _ hcondition) (hds p (by simp) _ hpositive)
      (hds n (by simp) _ hnegative) hkind hkind' hkind''
  | [] | [_] | _ :: _ :: _ :: _ :: _ => exact absurd h not_gives_reject

theorem loop_sound (h : Gives (loop (ds.map part) span) a) :
    Lowers (.node "WHILE" value ds span) a := by
  obtain ⟨q, hq, h⟩ := gives_bind h
  obtain ⟨c, b, rfl, rfl⟩ := gives_both hq
  obtain ⟨condition, hc, h⟩ := gives_bind h
  obtain ⟨body, hb, h⟩ := gives_bind h
  obtain ⟨hcondition, hkind⟩ := gives_ofKind hc
  obtain ⟨hbody, hkind'⟩ := gives_ofKind hb
  rw [gives_pure h]
  exact .loop (hds c (by simp) _ hcondition) (hds b (by simp) _ hbody) hkind hkind'

theorem operation_sound (h : Gives (operation value (ds.map part) span) a) :
    Lowers (.node "OPERATION" value ds span) a := by
  obtain ⟨op, hop, h₁⟩ := gives_bind h
  obtain ⟨q, hq, h₂⟩ := gives_bind h₁
  obtain ⟨l, r, rfl, rfl⟩ := gives_both hq
  obtain ⟨left, hl, h₃⟩ := gives_bind h₂
  obtain ⟨right, hr, h₄⟩ := gives_bind h₃
  obtain ⟨rfl, hknown⟩ := gives_operator hop
  obtain ⟨hleft, hkind⟩ := gives_ofKind hl
  obtain ⟨hright, hkind'⟩ := gives_ofKind hr
  rw [gives_pure h₄]
  exact .operation hknown (hds l (by simp) _ hleft) (hds r (by simp) _ hright) hkind hkind'

theorem call_sound (h : Gives (call value (ds.map part) span) a) :
    Lowers (.node "FUNCTION_CALL" value ds span) a := by
  obtain ⟨text, htext, h₁⟩ := gives_bind h
  obtain ⟨args, hargs, h₂⟩ := gives_bind h₁
  obtain ⟨rfl, hne⟩ := gives_name htext
  rw [gives_pure h₂]
  obtain ⟨hinner, hkinds⟩ := gives_expressions hargs
  exact .call hne (forall₂_sound hds hinner) hkinds

/-- A node that is put together from sound parts is what the rules say. -/
theorem assemble_sound {kind : String} (h : Gives (assemble kind value (lowerParts ds) span) a) :
    Lowers (.node kind value ds span) a := by
  rw [lowerParts_eq] at h
  unfold assemble at h
  split at h
  · obtain ⟨b, hb, rfl⟩ := gives_map h
    obtain ⟨d, rfl, hinner, hkind⟩ := gives_innerBlock hb
    exact .program (hds d (by simp) b hinner) hkind
  · exact block_sound hds h
  · obtain ⟨b, hb, rfl⟩ := gives_map h
    obtain ⟨d, rfl, hinner, hkind⟩ := gives_innerBlock hb
    exact .braced (hds d (by simp) b hinner) hkind
  · exact function_sound hds h
  · exact declaration_sound hds h
  · exact assignment_sound hds h
  · exact branch_sound hds h
  · exact loop_sound hds h
  · obtain ⟨e, he, rfl⟩ := gives_map h
    obtain ⟨d, rfl, hinner, hkind⟩ := gives_onlyExpression he
    exact .result (hds d (by simp) e hinner) hkind
  · obtain ⟨e, he, rfl⟩ := gives_map h
    obtain ⟨d, rfl, hinner, hkind⟩ := gives_onlyExpression he
    exact .statement (hds d (by simp) e hinner) hkind
  · exact operation_sound hds h
  · obtain ⟨e, he, rfl⟩ := gives_map h
    obtain ⟨d, rfl, hinner, hkind⟩ := gives_onlyExpression he
    exact .parens (hds d (by simp) e hinner) hkind
  · obtain ⟨_, hcount, h⟩ := gives_bind h
    obtain rfl : ds = [] :=
      List.eq_nil_of_length_eq_zero (Nat.le_zero.mp (gives_countWithin hcount).2)
    rw [gives_pure h]
    exact .literal
  · obtain ⟨_, hcount, h₁⟩ := gives_bind h
    obtain ⟨text, htext, h₂⟩ := gives_bind h₁
    obtain rfl : ds = [] :=
      List.eq_nil_of_length_eq_zero (Nat.le_zero.mp (gives_countWithin hcount).2)
    obtain ⟨rfl, hne⟩ := gives_name htext
    rw [gives_pure h₂]
    exact .reference hne
  · exact call_sound hds h
  · exact absurd h not_gives_reject

end Sound

/-! ## What answers come to -/

theorem yields_pure (a : α) : Yields (pure a : Lowering α) a := fun i => ⟨i, rfl⟩

theorem yields_bind {m : Lowering α} {f : α → Lowering β} {a : α} {b : β} (hm : Yields m a)
    (hf : Yields (f a) b) : Yields (m >>= f) b := by
  intro i
  obtain ⟨j, hj⟩ := hm i
  obtain ⟨k, hk⟩ := hf j
  refine ⟨k, ?_⟩
  change Lowering.bind m f i = _
  unfold Lowering.bind
  rw [hj]
  exact hk

theorem yields_map {m : Lowering α} {a : α} (hm : Yields m a) (g : α → β) :
    Yields (do return g (← m)) (g a) := yields_bind hm (yields_pure _)

theorem yields_inspect (kind : String) (value : Datum) : Yields (inspect kind value) () :=
  fun _ => ⟨_, rfl⟩

theorem yields_name {x : String} (hx : x ≠ "") (kind : String) (span : Option Span) :
    Yields (name kind span (.text x)) x := by
  have hempty : x.isEmpty = false := by simpa using hx
  simp only [name, hempty]
  exact yields_pure x

theorem yields_names {xs : List String} (hxs : ∀ x ∈ xs, x ≠ "") (kind : String)
    (span : Option Span) : Yields (names kind span (xs.map .text)) xs := by
  induction xs with
  | nil => exact yields_pure []
  | cons x xs ih =>
    obtain ⟨hx, hxs⟩ := List.forall_mem_cons.mp hxs
    exact yields_bind (yields_name hx kind span) (yields_map (ih hxs) _)

theorem yields_elements {d : Datum} {ds : List Datum} (h : d.elements? = some ds) :
    Yields (elements d) ds := by
  simp only [elements, h]
  exact yields_pure ds

theorem yields_operator {op : String} (h : (Operator.ofSymbol? op).isSome) (span : Option Span) :
    Yields (operator span (.text op)) op := by
  simp only [operator, h]
  exact yields_pure op

theorem yields_onlyStatements {as : List Ast} (h : ∀ a ∈ as, a.isExpression = false) :
    Yields (onlyStatements as) () := by
  induction as with
  | nil => exact yields_pure ()
  | cons a as ih =>
    obtain ⟨ha, has⟩ := List.forall_mem_cons.mp h
    simp only [onlyStatements, ha]
    exact ih has

theorem yields_ofKind {allowed : List String} {d : Datum} {a : Ast} (h : Yields (lower d) a)
    (hkind : d.OneOf allowed) : Yields (ofKind allowed (part d)) a := by
  obtain ⟨k, hk, hd⟩ := hkind
  match d with
  | .node kind value ds span =>
    cases hd
    simp only [ofKind, part, if_pos hk]
    exact h
  | .null | .bool _ | .int _ | .text _ | .list _ | .dict _ => cases hd

theorem yields_innerBlock {d : Datum} {a : Ast} (h : Yields (lower d) a)
    (hkind : d.OneOf ["BLOCK"]) (kind : String) (span : Option Span) :
    Yields (innerBlock kind [part d] span) a :=
  yields_bind (yields_pure _) (yields_ofKind h hkind)

theorem yields_onlyExpression {d : Datum} {a : Ast} (h : Yields (lower d) a)
    (hkind : d.OneOf expressionKinds) (kind : String) (span : Option Span) :
    Yields (onlyExpression kind [part d] span) a :=
  yields_bind (yields_pure _) (yields_ofKind h hkind)

theorem yields_every {ds : List Datum} {as : List Ast}
    (h : List.Forall₂ (fun d a => Yields (lower d) a) ds as) : Yields (every (ds.map part)) as := by
  induction h with
  | nil => exact yields_pure []
  | cons hd _ ih => exact yields_bind hd (yields_map ih _)

theorem yields_expressions {ds : List Datum} {as : List Ast}
    (h : List.Forall₂ (fun d a => Yields (lower d) a) ds as)
    (hkinds : ∀ d ∈ ds, d.OneOf expressionKinds) : Yields (expressions (ds.map part)) as := by
  induction h with
  | nil => exact yields_pure []
  | cons hd _ ih =>
    obtain ⟨hkind, hkinds⟩ := List.forall_mem_cons.mp hkinds
    exact yields_bind (yields_ofKind hd hkind) (yields_map (ih hkinds) _)

theorem forall₂_complete {ds : List Datum} {as : List Ast} (h : List.Forall₂ Lowers ds as)
    (hds : ∀ d ∈ ds, ∀ a, Lowers d a → Yields (lower d) a) :
    List.Forall₂ (fun d a => Yields (lower d) a) ds as := by
  induction h with
  | nil => exact .nil
  | @cons d a ds as hda _ ih =>
    exact .cons (hds d (by simp) a hda) (ih fun e he => hds e (by simp [he]))

/-- What the rules say of a node is how it is put together. -/
theorem assemble_complete {kind : String} {value : Datum} {ds : List Datum} {span : Option Span}
    {a : Ast} (hds : ∀ d ∈ ds, ∀ a, Lowers d a → Yields (lower d) a)
    (h : Lowers (.node kind value ds span) a) :
    Yields (assemble kind value (lowerParts ds) span) a := by
  rw [lowerParts_eq]
  cases h with
  | program inner kind =>
    rw [assemble]
    exact yields_map (yields_innerBlock (hds _ (by simp) _ inner) kind _ span) _
  | block inner statements =>
    rw [assemble]
    exact yields_bind (yields_every (forall₂_complete inner hds))
      (yields_map (yields_onlyStatements statements) _)
  | braced inner kind =>
    rw [assemble]
    exact yields_map (yields_innerBlock (hds _ (by simp) _ inner) kind _ span) _
  | @function entries name params d a span named name_ne taken params_ne inner kind =>
    rw [assemble]
    simp only [function, named, Option.getD_some]
    refine yields_bind (yields_name name_ne _ span) (yields_bind (yields_elements taken) ?_)
    refine yields_bind (yields_names params_ne _ span) (yields_bind (yields_pure _) ?_)
    exact yields_map (yields_ofKind (hds _ (by simp) _ inner) kind) _
  | declaration name_ne =>
    rw [assemble]
    exact yields_bind (yields_name name_ne _ span) (yields_bind (yields_pure _) (yields_pure _))
  | initialized name_ne inner kind =>
    rw [assemble]
    exact yields_bind (yields_name name_ne _ span) (yields_bind (yields_pure _)
      (yields_map (yields_ofKind (hds _ (by simp) _ inner) kind) _))
  | assignment name_ne inner kind =>
    rw [assemble]
    exact yields_bind (yields_name name_ne _ span)
      (yields_bind (yields_pure _) (yields_map (yields_ofKind (hds _ (by simp) _ inner) kind) _))
  | branch condition positive kind kind_positive =>
    rw [assemble]
    exact yields_bind (yields_ofKind (hds _ (by simp) _ condition) kind)
      (yields_map (yields_ofKind (hds _ (by simp) _ positive) kind_positive) _)
  | alternative condition positive negative kind kind_positive kind_negative =>
    rw [assemble]
    exact yields_bind (yields_ofKind (hds _ (by simp) _ condition) kind)
      (yields_bind (yields_ofKind (hds _ (by simp) _ positive) kind_positive)
        (yields_map (yields_ofKind (hds _ (by simp) _ negative) kind_negative) _))
  | loop condition body kind kind_body =>
    rw [assemble]
    exact yields_bind (yields_pure (part _, part _))
      (yields_bind (yields_ofKind (hds _ (by simp) _ condition) kind)
        (yields_map (yields_ofKind (hds _ (by simp) _ body) kind_body) _))
  | result inner kind =>
    rw [assemble]
    exact yields_map (yields_onlyExpression (hds _ (by simp) _ inner) kind _ span) _
  | statement inner kind =>
    rw [assemble]
    exact yields_map (yields_onlyExpression (hds _ (by simp) _ inner) kind _ span) _
  | operation known left right kind_left kind_right =>
    rw [assemble]
    exact yields_bind (yields_operator known span) (yields_bind (yields_pure (part _, part _))
      (yields_bind (yields_ofKind (hds _ (by simp) _ left) kind_left)
        (yields_map (yields_ofKind (hds _ (by simp) _ right) kind_right) _)))
  | parens inner kind =>
    rw [assemble]
    exact yields_map (yields_onlyExpression (hds _ (by simp) _ inner) kind _ span) _
  | literal =>
    rw [assemble]
    exact yields_bind (yields_pure _) (yields_pure _)
  | reference name_ne =>
    rw [assemble]
    exact yields_bind (yields_pure _) (yields_map (yields_name name_ne _ span) _)
  | call name_ne inner kinds =>
    rw [assemble]
    exact yields_bind (yields_name name_ne _ span)
      (yields_map (yields_expressions (forall₂_complete inner hds) kinds) _)

end Lowering

/-- What a datum is lowered to is what the rules say. -/
theorem lower_sound {d : Datum} {a : Ast} (h : Lowering.Gives (lower d) a) : Lowers d a := by
  match d with
  | .node kind value ds span =>
    obtain ⟨_, _, h⟩ := Lowering.gives_bind h
    refine Lowering.assemble_sound (fun e he b hb => ?_) h
    have := List.sizeOf_lt_of_mem he
    exact lower_sound hb
  | .null | .bool _ | .int _ | .text _ | .list _ | .dict _ =>
    exact absurd h Lowering.not_gives_reject
termination_by sizeOf d

/-- What the rules say is what a datum is lowered to. -/
theorem lower_complete {d : Datum} {a : Ast} (h : Lowers d a) : Lowering.Yields (lower d) a := by
  match d with
  | .node kind value ds span =>
    refine Lowering.yields_bind (Lowering.yields_inspect kind value) ?_
    refine Lowering.assemble_complete (fun e he b hb => ?_) h
    have := List.sizeOf_lt_of_mem he
    exact lower_complete hb
  | .null | .bool _ | .int _ | .text _ | .list _ | .dict _ => cases h
termination_by sizeOf d

theorem lowerProgram_sound {d : Datum} {a : Ast} (h : Lowering.Gives (lowerProgram d) a) :
    Lowers d a ∧ d.kind? = some "PROGRAM" := by
  match d with
  | .node kind value ds span =>
    simp only [lowerProgram] at h
    split at h
    · next hk =>
      exact ⟨Lowering.assemble_sound (fun e _ b hb => lower_sound hb) h, congrArg some hk⟩
    · exact absurd h Lowering.not_gives_reject
  | .null | .bool _ | .int _ | .text _ | .list _ | .dict _ =>
    exact absurd h Lowering.not_gives_fail

theorem lowerProgram_complete {d : Datum} {a : Ast} (h : Lowers d a)
    (hkind : d.kind? = some "PROGRAM") : Lowering.Yields (lowerProgram d) a := by
  match d with
  | .node kind value ds span =>
    simp only [lowerProgram, if_pos (Option.some.inj hkind)]
    exact Lowering.assemble_complete (fun e _ b hb => lower_complete hb) h
  | .null | .bool _ | .int _ | .text _ | .list _ | .dict _ => cases h

end Bronti
