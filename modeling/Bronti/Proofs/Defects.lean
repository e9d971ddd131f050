import Bronti.Proofs.Lowering
import Bronti.Session

/-!
Why lowering breaks off. Whatever was inspected before, a datum comes to one verdict: a tree or a
defect. The defect is a rejection, unless a node asks a plain value for its kind or the parameters
of a function are no collection.
-/
namespace Bronti

namespace Datum

theorem nodesOfAll_eq (ds : List Datum) : nodesOfAll ds = ds.flatMap nodes := by
  induction ds with
  | nil => rfl
  | cons d ds ih => simp [nodesOfAll, ih]

theorem mem_nodes {kind : String} {value : Datum} {ds : List Datum} {span : Option Span}
    {n : Datum} : n ∈ (node kind value ds span).nodes ↔
      n = node kind value ds span ∨ ∃ e ∈ ds, n ∈ e.nodes := by
  rw [nodes, nodesOfAll_eq, List.mem_cons, List.mem_flatMap]

theorem mem_nodes_of_child {d e n : Datum} (he : e ∈ d.children) (hn : n ∈ e.nodes) :
    n ∈ d.nodes := by
  cases d with
  | node kind value children span => exact mem_nodes.mpr (.inr ⟨e, he, hn⟩)
  | _ => cases he

/-- The kinds of nodes whose children are asked for their kinds before they are lowered. -/
def askingKinds : List String :=
  ["PROGRAM", "BRACED_BLOCK", "FUNCTION_DEF", "VARIABLE_DECL", "ASSIGNMENT", "IF", "WHILE",
    "RETURN", "EXPRESSION_STATEMENT", "OPERATION", "PARENTHESIZED", "FUNCTION_CALL"]

/-- In `d`, the datum is a child of a node that asks for the kinds of its children. -/
def Asked (d e : Datum) : Prop := ∃ n ∈ d.nodes, n.OneOf askingKinds ∧ e ∈ n.children

/-- In `d`, the datum is given as the parameters of a function. -/
def Taken (d e : Datum) : Prop :=
  ∃ n ∈ d.nodes, n.kind? = some "FUNCTION_DEF" ∧
    ∃ entries, n.value = .dict entries ∧ entry? "params" entries = some e

end Datum

/-- A defect with its reason in `d`. -/
inductive Defect.Within (d : Datum) : Defect → Prop
  | rejected (r : Rejection) : Within d (.rejected r)
  | kindOfPlain {e : Datum} (plain : e.kind? = none) (asked : d.Asked e) : Within d (.kindOfPlain e)
  | notCollection {e : Datum} (plain : e.elements? = none) (taken : d.Taken e) :
      Within d (.notCollection e)

theorem Defect.Within.of_child {d c : Datum} {e : Defect} (h : e.Within c) (hc : c ∈ d.children) :
    e.Within d := by
  cases h with
  | rejected r => exact .rejected r
  | kindOfPlain plain asked =>
    obtain ⟨n, hn, h⟩ := asked
    exact .kindOfPlain plain ⟨n, Datum.mem_nodes_of_child hc hn, h⟩
  | notCollection plain taken =>
    obtain ⟨n, hn, h⟩ := taken
    exact .notCollection plain ⟨n, Datum.mem_nodes_of_child hc hn, h⟩

namespace Lowering

variable {α β : Type} {allowed : Defect → Prop}

/-- A good answer, or a defect that is allowed. -/
def Verdict (allowed : Defect → Prop) (good : α → Prop) : Except Defect α → Prop
  | .ok a => good a
  | .error e => allowed e

/-- The lowering comes to one verdict, whatever was inspected before. -/
def Settles (allowed : Defect → Prop) (good : α → Prop) (m : Lowering α) : Prop :=
  ∃ r, Verdict allowed good r ∧ ∀ i, ∃ j, m i = (r, j)

/-- The lowering comes to one verdict, and any answer is good. -/
abbrev Decides (allowed : Defect → Prop) (m : Lowering α) : Prop :=
  Settles allowed (fun _ => True) m

section Steps

variable {good : α → Prop} {good' : β → Prop} {m : Lowering α} {f : α → Lowering β}

theorem settles_pure {a : α} (h : good a) : Settles allowed good (pure a) :=
  ⟨.ok a, h, fun i => ⟨i, rfl⟩⟩

theorem settles_fail {e : Defect} (h : allowed e) : Settles allowed good (fail e) :=
  ⟨.error e, h, fun i => ⟨i, rfl⟩⟩

theorem settles_inspect (kind : String) (value : Datum) :
    Decides allowed (inspect kind value) :=
  ⟨.ok (), trivial, fun _ => ⟨_, rfl⟩⟩

theorem Settles.bind (hm : Settles allowed good m)
    (hf : ∀ a, good a → Settles allowed good' (f a)) : Settles allowed good' (m >>= f) := by
  obtain ⟨r, hr, hm⟩ := hm
  change Settles allowed good' (Lowering.bind m f)
  cases r with
  | error e =>
    refine ⟨.error e, hr, fun i => ?_⟩
    obtain ⟨j, hj⟩ := hm i
    exact ⟨j, by simp only [Lowering.bind, hj]⟩
  | ok a =>
    obtain ⟨r, hr, hf⟩ := hf a hr
    refine ⟨r, hr, fun i => ?_⟩
    obtain ⟨j, hj⟩ := hm i
    obtain ⟨k, hk⟩ := hf j
    exact ⟨k, by simp only [Lowering.bind, hj, hk]⟩

theorem Settles.mono {allowed' : Defect → Prop} (h : Settles allowed good m)
    (hallowed : ∀ e, allowed e → allowed' e) : Settles allowed' good m := by
  obtain ⟨r, hr, hm⟩ := h
  refine ⟨r, ?_, hm⟩
  cases r with
  | ok a => exact hr
  | error e => exact hallowed e hr

theorem Settles.map (h : Settles allowed good m) (g : α → β) :
    Decides allowed (do return g (← m)) :=
  h.bind fun _ _ => settles_pure trivial

/-- A lowering that settles comes to the same wherever it begins. -/
theorem Settles.eq (h : Settles allowed good m) (i j : Inspection) : (m i).1 = (m j).1 := by
  obtain ⟨r, -, hm⟩ := h
  obtain ⟨k, hk⟩ := hm i
  obtain ⟨l, hl⟩ := hm j
  rw [hk, hl]

end Steps

section Nodes

variable (hreject : ∀ r, allowed (.rejected r))

include hreject

theorem settles_reject {good : α → Prop} (c : Complaint) (span : Option Span) :
    Settles allowed good (reject c span) := settles_fail (hreject _)

theorem ofKind_settles {d : Datum} (hlower : Decides allowed (lower d))
    (hplain : d.kind? = none → allowed (.kindOfPlain d)) (kinds : List String) :
    Decides allowed (ofKind kinds (part d)) := by
  unfold ofKind
  cases d with
  | node kind value children span =>
    dsimp only [part]
    split
    · exact hlower
    · exact settles_reject hreject _ _
  | _ => exact settles_fail (hplain rfl)

theorem name_settles (kind : String) (span : Option Span) (d : Datum) :
    Decides allowed (name kind span d) := by
  unfold name
  split
  · split
    · exact settles_reject hreject _ _
    · exact settles_pure trivial
  · exact settles_reject hreject _ _

theorem names_settle (kind : String) (span : Option Span) (ds : List Datum) :
    Decides allowed (names kind span ds) := by
  induction ds with
  | nil => exact settles_pure trivial
  | cons d ds ih =>
    exact (name_settles hreject kind span d).bind fun _ _ => ih.map _

theorem operator_settles (span : Option Span) (d : Datum) :
    Decides allowed (operator span d) := by
  unfold operator
  split
  · split
    · exact settles_pure trivial
    · exact settles_reject hreject _ _
  · exact settles_reject hreject _ _

theorem onlyStatements_settles (as : List Ast) :
    Decides allowed (onlyStatements as) := by
  induction as with
  | nil => exact settles_pure trivial
  | cons a as ih =>
    unfold onlyStatements
    split
    · exact settles_reject hreject _ _
    · exact ih

variable {parts : List Part}

theorem only_settles (kind : String) (span : Option Span) :
    Settles allowed (· ∈ parts) (only kind parts span) := by
  match parts with
  | [p] => exact settles_pure (by simp)
  | [] | _ :: _ :: _ => exact settles_reject hreject _ _

theorem both_settles (kind : String) (span : Option Span) :
    Settles allowed (fun q => q.1 ∈ parts ∧ q.2 ∈ parts) (both kind parts span) := by
  match parts with
  | [p, q] => exact settles_pure (by simp)
  | [] | [_] | _ :: _ :: _ :: _ => exact settles_reject hreject _ _

theorem countWithin_settles (kind : String) (least most : Nat) (span : Option Span) :
    Settles allowed (fun _ => parts.length ≤ most) (countWithin kind least most parts span) := by
  unfold countWithin
  split
  · next h => exact settles_pure h.2
  · exact settles_reject hreject _ _

theorem block_settles (span : Option Span)
    (hlower : ∀ p ∈ parts, Decides allowed p.lowered) :
    Decides allowed (block parts span) := by
  have hevery : Decides allowed (every parts) := by
    induction parts with
    | nil => exact settles_pure trivial
    | cons p parts ih =>
      obtain ⟨hp, hparts⟩ := List.forall_mem_cons.mp hlower
      exact hp.bind fun _ _ => (ih hparts).map _
  refine hevery.bind fun as _ => (onlyStatements_settles hreject as).bind fun _ _ => ?_
  exact settles_pure trivial

theorem literal_settles (value : Datum) (span : Option Span) :
    Decides allowed (literal value parts span) :=
  (countWithin_settles hreject _ _ _ span).map _

theorem reference_settles (value : Datum) (span : Option Span) :
    Decides allowed (reference value parts span) := by
  apply (countWithin_settles hreject _ _ _ span).bind
  intro _ _
  exact (name_settles hreject _ span value).map _

/-! ### Nodes that ask for the kinds of their children -/

variable (hpart : ∀ p ∈ parts, ∀ kinds, Decides allowed (ofKind kinds p))

include hpart

omit hreject in
theorem expressions_settle : Decides allowed (expressions parts) := by
  induction parts with
  | nil => exact settles_pure trivial
  | cons p parts ih =>
    obtain ⟨hp, hparts⟩ := List.forall_mem_cons.mp hpart
    exact (hp _).bind fun _ _ => (ih hparts).map _

theorem innerBlock_settles (kind : String) (span : Option Span) :
    Decides allowed (innerBlock kind parts span) :=
  (only_settles hreject kind span).bind fun p hp => hpart p hp _

theorem onlyExpression_settles (kind : String) (span : Option Span) :
    Decides allowed (onlyExpression kind parts span) :=
  (only_settles hreject kind span).bind fun p hp => hpart p hp _

theorem function_settles {value : Datum} (span : Option Span)
    (hparams : ∀ entries e, value = .dict entries → Datum.entry? "params" entries = some e →
      e.elements? = none → allowed (.notCollection e)) :
    Decides allowed (function value parts span) := by
  unfold function
  split
  · next entries =>
    have helements : Decides allowed
        (elements ((Datum.entry? "params" entries).getD (.list []))) := by
      unfold elements
      split
      · exact settles_pure trivial
      · next hnone =>
        cases he : Datum.entry? "params" entries with
        | none => simp [he, Datum.elements?] at hnone
        | some e =>
          rw [he] at hnone
          exact settles_fail (hparams entries e rfl he hnone)
    apply (name_settles hreject _ span _).bind
    intro _ _
    apply helements.bind
    intro ds _
    apply (names_settle hreject _ span ds).bind
    intro _ _
    apply (only_settles hreject _ span).bind
    intro p hp
    exact (hpart p hp _).map _
  · exact settles_reject hreject _ _

theorem declaration_settles (value : Datum) (span : Option Span) :
    Decides allowed (declaration value parts span) := by
  apply (name_settles hreject _ span value).bind
  intro _ _
  apply (countWithin_settles hreject _ _ _ span).bind
  intro _ _
  cases parts with
  | nil => exact settles_pure trivial
  | cons p parts => exact (hpart p (by simp) _).map _

theorem assignment_settles (value : Datum) (span : Option Span) :
    Decides allowed (assignment value parts span) := by
  apply (name_settles hreject _ span value).bind
  intro _ _
  apply (only_settles hreject _ span).bind
  intro p hp
  exact (hpart p hp _).map _

theorem branch_settles (span : Option Span) :
    Decides allowed (branch parts span) := by
  match parts with
  | [c, p] =>
    refine (hpart c (by simp) _).bind fun _ _ => (hpart p (by simp) _).bind fun _ _ => ?_
    exact settles_pure trivial
  | [c, p, n] =>
    refine (hpart c (by simp) _).bind fun _ _ => (hpart p (by simp) _).bind fun _ _ => ?_
    exact (hpart n (by simp) _).map _
  | [] | [_] | _ :: _ :: _ :: _ :: _ => exact settles_reject hreject _ _

theorem loop_settles (span : Option Span) : Decides allowed (loop parts span) := by
  apply (both_settles hreject _ span).bind
  intro q hq
  refine (hpart q.1 hq.1 _).bind fun _ _ => (hpart q.2 hq.2 _).bind fun _ _ => ?_
  exact settles_pure trivial

theorem operation_settles (value : Datum) (span : Option Span) :
    Decides allowed (operation value parts span) := by
  apply (operator_settles hreject span value).bind
  intro _ _
  apply (both_settles hreject _ span).bind
  intro q hq
  refine (hpart q.1 hq.1 _).bind fun _ _ => (hpart q.2 hq.2 _).bind fun _ _ => ?_
  exact settles_pure trivial

theorem call_settles (value : Datum) (span : Option Span) :
    Decides allowed (call value parts span) := by
  apply (name_settles hreject _ span value).bind
  intro _ _
  exact (expressions_settle hpart).map _

omit hpart

/-- A node settles if its parts do, and if what it may come to itself is allowed. -/
theorem assemble_settles {kind : String} {value : Datum} (span : Option Span)
    (hlower : ∀ p ∈ parts, Decides allowed p.lowered)
    (hpart : kind ∈ Datum.askingKinds →
      ∀ p ∈ parts, ∀ kinds, Decides allowed (ofKind kinds p))
    (hparams : kind = "FUNCTION_DEF" → ∀ entries e, value = .dict entries →
      Datum.entry? "params" entries = some e → e.elements? = none → allowed (.notCollection e)) :
    Decides allowed (assemble kind value parts span) := by
  unfold assemble
  split
  · exact (innerBlock_settles hreject (hpart (by simp [Datum.askingKinds])) _ span).map _
  · exact block_settles hreject span hlower
  · exact (innerBlock_settles hreject (hpart (by simp [Datum.askingKinds])) _ span).map _
  · exact function_settles hreject (hpart (by simp [Datum.askingKinds])) span (hparams rfl)
  · exact declaration_settles hreject (hpart (by simp [Datum.askingKinds])) value span
  · exact assignment_settles hreject (hpart (by simp [Datum.askingKinds])) value span
  · exact branch_settles hreject (hpart (by simp [Datum.askingKinds])) span
  · exact loop_settles hreject (hpart (by simp [Datum.askingKinds])) span
  · exact (onlyExpression_settles hreject (hpart (by simp [Datum.askingKinds])) _ span).map _
  · exact (onlyExpression_settles hreject (hpart (by simp [Datum.askingKinds])) _ span).map _
  · exact operation_settles hreject (hpart (by simp [Datum.askingKinds])) value span
  · exact (onlyExpression_settles hreject (hpart (by simp [Datum.askingKinds])) _ span).map _
  · exact literal_settles hreject value span
  · exact reference_settles hreject value span
  · exact call_settles hreject (hpart (by simp [Datum.askingKinds])) value span
  · exact settles_reject hreject _ _

end Nodes

/-- A node settles with the defects within it if its children do with those within them. -/
theorem assemble_within {kind : String} {value : Datum} {ds : List Datum} {span : Option Span}
    (h : ∀ d ∈ ds, Decides (Defect.Within d) (lower d)) :
    Decides (Defect.Within (.node kind value ds span))
      (assemble kind value (lowerParts ds) span) := by
  have hself : Datum.node kind value ds span ∈ (Datum.node kind value ds span).nodes :=
    Datum.mem_nodes.mpr (.inl rfl)
  have hchild : ∀ d ∈ ds, Decides (Defect.Within (.node kind value ds span)) (lower d) :=
    fun d hd => (h d hd).mono fun _ he => he.of_child hd
  rw [lowerParts_eq]
  refine assemble_settles .rejected span ?_ (fun hkind => ?_) fun hkind entries e hv hp hnone => ?_
  · exact List.forall_mem_map.mpr hchild
  · refine List.forall_mem_map.mpr fun d hd kinds => ?_
    refine ofKind_settles .rejected (hchild d hd) (fun hplain => ?_) kinds
    exact .kindOfPlain hplain ⟨_, hself, ⟨kind, hkind, rfl⟩, hd⟩
  · exact .notCollection hnone ⟨_, hself, congrArg some hkind, entries, hv, hp⟩

end Lowering

open Lowering (Decides)

/-- A datum comes to one verdict, and to no defect but those within it. -/
theorem lower_settles (d : Datum) : Decides (Defect.Within d) (lower d) := by
  match d with
  | .node kind value ds span =>
    refine (Lowering.settles_inspect kind value).bind fun _ _ => ?_
    refine Lowering.assemble_within fun e he => ?_
    have := List.sizeOf_lt_of_mem he
    exact lower_settles e
  | .null | .bool _ | .int _ | .text _ | .list _ | .dict _ =>
    exact Lowering.settles_reject .rejected _ _
termination_by sizeOf d

/-- As a whole program, a plain value is asked for its kind at once. -/
theorem lowerProgram_settles (d : Datum) :
    Decides (fun e => e.Within d ∨ e = .kindOfPlain d ∧ d.kind? = none) (lowerProgram d) := by
  match d with
  | .node kind value ds span =>
    simp only [lowerProgram]
    split
    · exact (Lowering.assemble_within fun e _ => lower_settles e).mono fun _ => .inl
    · exact Lowering.settles_reject (fun r => .inl (.rejected r)) _ _
  | .null | .bool _ | .int _ | .text _ | .list _ | .dict _ =>
    exact Lowering.settles_fail (.inr ⟨rfl, rfl⟩)

theorem lowering_settles (whole : Bool) (d : Datum) :
    Decides (fun e => e.Within d ∨ whole = true ∧ e = .kindOfPlain d ∧ d.kind? = none)
      (if whole then lowerProgram d else lower d) := by
  cases whole with
  | true => exact (lowerProgram_settles d).mono fun _ h => h.imp_right fun h => ⟨rfl, h⟩
  | false => exact (lower_settles d).mono fun _ => .inl

theorem Session.lower_answer (whole tracing : Bool) (d : Datum) :
    (Session.lower whole tracing d).answer =
      ((if whole then lowerProgram d else Bronti.lower d) ⟨tracing, []⟩).1.mapError .defect := by
  unfold Session.lower Lowering.run
  generalize (if whole then lowerProgram d else Bronti.lower d) ⟨tracing, []⟩ = verdict
  obtain ⟨r, i⟩ := verdict
  cases r <;> rfl

/-- What a tree is lowered to is what the rules say. -/
theorem Session.lowers_of_answer {whole tracing : Bool} {d : Datum} {a : Ast}
    (h : (Session.lower whole tracing d).answer = .ok a) :
    Lowers d a ∧ (whole = true → d.kind? = some "PROGRAM") := by
  have hgives : Lowering.Gives (if whole then lowerProgram d else Bronti.lower d) a := by
    rw [lower_answer] at h
    refine ⟨⟨tracing, []⟩, _, Prod.ext ?_ rfl⟩
    generalize ((if whole then lowerProgram d else Bronti.lower d) ⟨tracing, []⟩).1 = r at h ⊢
    cases r <;> cases h
    rfl
  cases whole with
  | true => exact (lowerProgram_sound hgives).imp_right fun hkind _ => hkind
  | false => exact ⟨lower_sound hgives, nofun⟩

/-- A tree that is lowered, as a program or as the node that it is, gives a tree or a rejection.
There are two exceptions: a plain value may be asked for its kind, by the node that it is a child of
or as the whole program, and what is given as the parameters of a function may be no collection. -/
theorem malformed_trees_rejected (whole tracing : Bool) (d : Datum) :
    (∃ a, (Session.lower whole tracing d).answer = .ok a) ∨
      ∃ e, (Session.lower whole tracing d).answer = .error (.defect e) ∧
        ((∃ r, e = .rejected r) ∨
          (∃ x, e = .kindOfPlain x ∧ x.kind? = none ∧ (d.Asked x ∨ whole = true ∧ x = d)) ∨
          ∃ x, e = .notCollection x ∧ x.elements? = none ∧ d.Taken x) := by
  obtain ⟨r, hr, hrun⟩ := lowering_settles whole d
  obtain ⟨i, hi⟩ := hrun ⟨tracing, []⟩
  have hanswer : (Session.lower whole tracing d).answer = r.mapError .defect := by
    rw [Session.lower_answer, hi]
  cases r with
  | ok a => exact .inl ⟨a, hanswer⟩
  | error e =>
    refine .inr ⟨e, hanswer, ?_⟩
    rcases hr with hwithin | ⟨hwhole, rfl, hplain⟩
    · cases hwithin with
      | rejected r => exact .inl ⟨r, rfl⟩
      | kindOfPlain plain asked => exact .inr (.inl ⟨_, rfl, plain, .inl asked⟩)
      | notCollection plain taken => exact .inr (.inr ⟨_, rfl, plain, taken⟩)
    · exact .inr (.inl ⟨d, rfl, hplain, .inr ⟨hwhole, rfl⟩⟩)

/-- A number in the place of the value to return is neither lowered nor rejected. -/
theorem number_for_value_unrejected :
    ¬ ((∃ a, (Session.lower false false (.node "RETURN" .null [.int 5] none)).answer = .ok a) ∨
      ∃ r, (Session.lower false false (.node "RETURN" .null [.int 5] none)).answer =
        .error (.defect (.rejected r))) := by
  have hanswer : (Session.lower false false (.node "RETURN" .null [.int 5] none)).answer =
      .error (.defect (.kindOfPlain (.int 5))) := rfl
  simp [hanswer]

end Bronti
