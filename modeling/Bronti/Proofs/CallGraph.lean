import Bronti.Proofs.Faultless
import Bronti.Proofs.Finishing
import Mathlib

/-!
Calls by name. The body that a call runs is found at run time, in the frames that happen to be open, but
whatever is found was defined somewhere in the program under the name that is called. So the names of a
program form a graph that covers every call that a run can make, and where this graph has no cycle no
evaluation comes to a node from that node itself. A program without loops then has no more than its own
nodes to nest.
-/
namespace Bronti

open Run Eval
open Relation (ReflTransGen TransGen)

namespace Ast

/-- No node of the tree is a loop. -/
def Loopless (tree : Ast) : Prop := ∀ a ∈ tree.nodes, a.kind ≠ "WHILE"

/-- A call of `g` stands inside the body of some definition of `f`. -/
def Calls (tree : Ast) (f g : String) : Prop :=
  ∃ params body span args span',
    .function f params body span ∈ tree.nodes ∧ .call g args span' ∈ body.nodes

/-- No function comes to a call of itself, by way of whatever other functions of the tree. -/
def Acyclic (tree : Ast) : Prop := ∀ f, ¬ TransGen tree.Calls f f

/-- From a node to the nodes inside it, and from a call to the bodies of all functions of its name. -/
inductive Leads (tree : Ast) : Ast → Ast → Prop
  | inside {a b : Ast} (child : b ∈ a.children) : Leads tree a b
  | body {x : String} {params : List String} {body : Ast} {args : List Ast}
      {span span' : Option Span} (defined : .function x params body span ∈ tree.nodes) :
      Leads tree (.call x args span') body

theorem mem_nodes_trans {a b c : Ast} (hb : b ∈ a.nodes) (hc : c ∈ b.nodes) : c ∈ a.nodes := by
  obtain rfl | ⟨d, hd, hb⟩ := mem_nodes.mp hb
  · exact hc
  · have := sizeOf_lt_of_child hd
    exact mem_nodes_of_child hd (mem_nodes_trans hb hc)
termination_by sizeOf a

theorem sizeOf_le_of_mem_nodes {a b : Ast} (h : b ∈ a.nodes) : sizeOf b ≤ sizeOf a := by
  obtain rfl | ⟨d, hd, hb⟩ := mem_nodes.mp h
  · exact Nat.le_refl _
  · have hlt := sizeOf_lt_of_child hd
    exact Nat.le_trans (sizeOf_le_of_mem_nodes hb) (Nat.le_of_lt hlt)
termination_by sizeOf a

theorem Leads.mem_nodes {tree a b : Ast} (h : tree.Leads a b) (ha : a ∈ tree.nodes) :
    b ∈ tree.nodes := by
  cases h with
  | inside child => exact mem_nodes_trans ha (mem_nodes_of_child child (mem_nodes_self b))
  | body defined =>
    exact mem_nodes_trans defined (mem_nodes_of_child (by simp [children]) (mem_nodes_self b))

/-- A rank that every call lowers. -/
theorem acyclic_of_rank {tree : Ast} (rank : String → Nat)
    (h : ∀ f g, tree.Calls f g → rank g < rank f) : tree.Acyclic := by
  have hfar : ∀ f g, TransGen tree.Calls f g → rank g < rank f := by
    intro f g hfg
    induction hfg with
    | single hfg => exact h _ _ hfg
    | tail _ hcall ih => exact Nat.lt_trans (h _ _ hcall) ih
  exact fun f hf => Nat.lt_irrefl _ (hfar f f hf)

/-- A way either stays inside the node that it starts from, or it leaves it at a call and ends inside a
function that is reached by calls from the one that is called there. -/
theorem leads_apart {tree a b : Ast} (h : TransGen tree.Leads a b) :
    (∃ c ∈ a.children, b ∈ c.nodes) ∨
      ∃ g f args span params body span', .call g args span ∈ a.nodes ∧
        ReflTransGen tree.Calls g f ∧ .function f params body span' ∈ tree.nodes ∧
        b ∈ body.nodes := by
  induction h with
  | single h =>
    cases h with
    | inside child => exact .inl ⟨_, child, mem_nodes_self _⟩
    | body defined =>
      exact .inr ⟨_, _, _, _, _, _, _, mem_nodes_self _, .refl, defined, mem_nodes_self _⟩
  | tail _ h ih =>
    cases h with
    | inside child =>
      have hinside := mem_nodes_of_child child (mem_nodes_self _)
      rcases ih with ⟨c, hc, hb⟩ | ⟨g, f, args, span, params, body, span', hcall, hgf, hf, hb⟩
      · exact .inl ⟨c, hc, mem_nodes_trans hb hinside⟩
      · exact .inr ⟨g, f, args, span, params, body, span', hcall, hgf, hf,
          mem_nodes_trans hb hinside⟩
    | body defined =>
      rcases ih with ⟨c, hc, hb⟩ | ⟨g, f, args, span, params, body, span', hcall, hgf, hf, hb⟩
      · exact .inr ⟨_, _, _, _, _, _, _, mem_nodes_of_child hc hb, .refl, defined,
          mem_nodes_self _⟩
      · have hedge := hgf.tail ⟨params, body, span', _, _, hf, hb⟩
        exact .inr ⟨g, _, args, span, _, _, _, hcall, hedge, defined, mem_nodes_self _⟩

/-- Where no function comes to a call of itself, no way comes back to where it started. -/
theorem Acyclic.leads_irrefl {tree : Ast} (h : tree.Acyclic) (a : Ast) :
    ¬ TransGen tree.Leads a a := by
  intro hcycle
  rcases leads_apart hcycle with
    ⟨c, hc, ha⟩ | ⟨g, f, args, span, params, body, span', hcall, hgf, hf, ha⟩
  · have hlt := sizeOf_lt_of_child hc
    have hle := sizeOf_le_of_mem_nodes ha
    omega
  · -- the call by which the way leaves stands in the function in which it ends
    have hedge : tree.Calls f g :=
      ⟨params, body, span', args, span, hf, mem_nodes_trans ha hcall⟩
    exact h f (.head' hedge hgf)

end Ast

/-- Every function that is declared in the state was defined in the tree, under the same name. -/
def State.DefinedIn (tree : Ast) (s : State) : Prop :=
  ∀ f ∈ s.frames, ∀ p ∈ f.funs, ∃ span, Ast.function p.1 p.2.params p.2.body span ∈ tree.nodes

namespace State.DefinedIn

variable {tree : Ast} {s t : State} {x : String}

theorem initial (tracing : Bool) : (State.initial tracing).DefinedIn tree := by
  simp [DefinedIn, State.initial, frames, Frame.empty]

theorem of_kept (hs : s.DefinedIn tree) (h : s.Kept t) : t.DefinedIn tree := by
  intro g hg p hp
  obtain ⟨f, hf, he⟩ := Chain.funs_of_kept h g hg
  exact hs f hf p (he ▸ hp)

theorem function (hs : s.DefinedIn tree) {k : Function} (h : s.frames.function? x = some k) :
    ∃ span, .function x k.params k.body span ∈ tree.nodes := by
  obtain ⟨f, hf, hm⟩ := Chain.mem_of_function h
  exact hs f hf (x, k) hm

theorem declareFunction {params : List String} {body : Ast} {span : Option Span}
    (hs : s.DefinedIn tree) (hf : .function x params body span ∈ tree.nodes)
    (h : s.declareFunction? x ⟨params, body⟩ = some t) : t.DefinedIn tree := by
  refine forall_frames_declareFunction hs h fun hinner p hp => ?_
  rcases List.mem_append.mp hp with hp | hp
  · exact hinner p hp
  · rw [List.mem_singleton.mp hp]
    exact ⟨span, hf⟩

end State.DefinedIn

/-- Nodes of a tree and functions that were defined in it. -/
def Invariant.definedIn (tree : Ast) : Invariant where
  state := State.DefinedIn tree
  tree a := a ∈ tree.nodes
  value _ := True
  fault _ := True
  child ha hb := Ast.mem_nodes_trans ha (Ast.mem_nodes_of_child hb (Ast.mem_nodes_self _))
  own_fault _ _ := trivial
  last_frame := trivial
  zero := trivial
  literal _ := trivial
  arithmetic _ _ _ := trivial
  visited a hs := hs.of_kept (.of_frames (State.frames_visit _ a))
  stored _ _ := trivial
  body hs hf := by
    obtain ⟨span, hdefined⟩ := hs.function hf
    exact Ast.mem_nodes_trans hdefined
      (Ast.mem_nodes_of_child (by simp [Ast.children]) (Ast.mem_nodes_self _))
  declared hs ht := State.forall_frames_declare hs ht id
  assigned hs _ ht := hs.of_kept (State.kept_set ht)
  defined hs ha ht := hs.declareFunction ha ht
  printed hs _ ht := hs.of_kept (.of_frames (State.frames_callBuiltin ht))
  opened hs := State.forall_frames_opened hs (by simp [Frame.empty])
  closed hs ht := State.forall_frames_close hs ht

/-- An evaluation asks for nothing but what its node leads to. -/
theorem Asked.leads {tree a b : Ast} {steps limit : Nat} {s t : State}
    (h : Asked (eval steps) limit s a b t) (ha : a ∈ tree.nodes) (hs : s.DefinedIn tree) :
    tree.Leads a b := by
  cases h with
  | body given found _ _ =>
    -- the function is found in the state that the arguments leave
    have hargs := Invariant.ints_keep ((Invariant.definedIn tree).eval_keeps steps)
      (fun c hc => (Invariant.definedIn tree).child ha hc) s hs
    obtain ⟨span, hdefined⟩ := (hargs.of_done given).1.function found
    exact .body hdefined
  | branch _ taken =>
    refine .inside ?_
    split at taken <;> simp [Ast.children, taken]
  | _ => exact .inside (by simp [Ast.children])

/-- An evaluation that does not finish is nested as deeply as it has steps, and each of the nodes that it
is nested in is another one. -/
theorem nested_lt_nodes {tree : Ast} (hloop : tree.Loopless) (hacyclic : tree.Acyclic) {steps : Nat}
    {a : Ast} {s : State} (h : eval steps a s = .unfinished) (hs : s.DefinedIn tree) {way : List Ast}
    (hway : ∀ b ∈ a :: way, b ∈ tree.nodes) (hnodup : (a :: way).Nodup)
    (hleads : ∀ b ∈ way, TransGen tree.Leads b a) : steps + way.length < tree.nodes.length := by
  induction steps generalizing a s way with
  | zero =>
    have hle := hnodup.length_le_of_subset hway
    simp only [List.length_cons] at hle
    omega
  | succ steps ih =>
    have ha : a ∈ tree.nodes := hway a (by simp)
    obtain ⟨b, t, hasked, hb⟩ := asks_unfinished (hloop a ha) h
    have hvisited : (s.visit a).DefinedIn tree := (Invariant.definedIn tree).visited a hs
    have ht : t.DefinedIn tree := ((Invariant.definedIn tree).asked hasked ha hvisited).2
    have hab : tree.Leads a b := hasked.leads ha hvisited
    have hleads' : ∀ c ∈ a :: way, TransGen tree.Leads c b :=
      List.forall_mem_cons.mpr ⟨.single hab, fun c hc => (hleads c hc).tail hab⟩
    have hnew : b ∉ a :: way := fun hc => hacyclic.leads_irrefl b (hleads' b hc)
    have hlt := ih hb ht (List.forall_mem_cons.mpr ⟨hab.mem_nodes ha, hway⟩)
      (List.nodup_cons.mpr ⟨hnew, hnodup⟩) hleads'
    simp only [List.length_cons] at hlt
    omega

/-- A program without loops in which no function comes to a call of itself always ends, with an exit code
or with an error of the evaluation. As many nested steps as it has nodes are enough. -/
theorem loopless_acyclic_ends {d : Datum} {tracing : Bool} {tree : Ast}
    (h : ((lowerProgram d).run tracing).1 = .ok tree) (hloop : tree.Loopless)
    (hacyclic : tree.Acyclic) {steps : Nat} (hsteps : tree.nodes.length ≤ steps) (tracing' : Bool) :
    (∃ n s, evaluate steps tracing' tree = .done n s) ∨
      ∃ e s, evaluate steps tracing' tree = .stopped (.error e) s := by
  have hgives : Lowering.Gives (lowerProgram d) tree := ⟨⟨tracing, []⟩, _, Prod.ext h rfl⟩
  obtain ⟨hlowers, hkind⟩ := lowerProgram_sound hgives
  have hne : tree.children ≠ [] := by
    cases hlowers with
    | program inner kind => simp [Ast.children]
    | _ => simp [Datum.kind?] at hkind
  have hfaultless := evaluate_faultless steps tracing' hlowers.faultless hne
  cases hr : evaluate steps tracing' tree with
  | done n s => exact .inl ⟨n, s, rfl⟩
  | stopped e s =>
    obtain ⟨err, rfl, -⟩ := hfaultless.of_stopped hr
    exact .inr ⟨err, s, rfl⟩
  | unfinished =>
    obtain ⟨a, ha, hunfinished⟩ := evaluate_unfinished hr
    have hmem : a ∈ tree.nodes := Ast.mem_nodes_of_child ha (Ast.mem_nodes_self a)
    have hlt := nested_lt_nodes hloop hacyclic hunfinished (.initial tracing')
      (List.forall_mem_singleton.mpr hmem) (by simp) (by simp)
    simp only [List.length_nil] at hlt
    omega

/-- Two functions, the second of which returns what the first one does. -/
def twoFunctions : Datum :=
  .node "PROGRAM" .null [.node "BLOCK" .null [
    .node "FUNCTION_DEF" (.dict [("name", .text "f")])
      [.node "BRACED_BLOCK" .null [.node "BLOCK" .null
        [.node "RETURN" .null [.node "LITERAL" (.text "7") [] none] none] none] none] none,
    .node "FUNCTION_DEF" (.dict [("name", .text "again")])
      [.node "BRACED_BLOCK" .null [.node "BLOCK" .null
        [.node "RETURN" .null [.node "FUNCTION_CALL" (.text "f") [] none] none] none] none] none,
    .node "RETURN" .null [.node "FUNCTION_CALL" (.text "again") [] none] none] none] none

/-- What the two functions are lowered to. -/
def twoFunctionsTree : Ast :=
  .program [.block [
    .function "f" [] (.braced [.block [.result (.literal "7" none) none] none] none) none,
    .function "again" [] (.braced [.block [.result (.call "f" [] none) none] none] none) none,
    .result (.call "again" [] none) none] none] none

/-- The longer of the two names calls the shorter one. -/
theorem two_functions_end :
    ((lowerProgram twoFunctions).run false).1 = .ok twoFunctionsTree ∧
      twoFunctionsTree.Loopless ∧ twoFunctionsTree.Acyclic ∧ twoFunctionsTree.nodes.length ≤ 14 ∧
      ((∃ n s, evaluate 14 false twoFunctionsTree = .done n s) ∨
        ∃ e s, evaluate 14 false twoFunctionsTree = .stopped (.error e) s) := by
  have hlowered : ((lowerProgram twoFunctions).run false).1 = .ok twoFunctionsTree := by cbv
  have hloop : twoFunctionsTree.Loopless := by
    unfold Ast.Loopless
    decide +kernel
  have hacyclic : twoFunctionsTree.Acyclic := by
    refine Ast.acyclic_of_rank String.length ?_
    rintro f g ⟨params, body, span, args, span', hf, hg⟩
    simp only [twoFunctionsTree, Ast.nodes, Ast.nodesOfAll, List.append_nil, List.cons_append,
      List.nil_append, List.mem_cons, reduceCtorEq, Ast.function.injEq, List.not_mem_nil, or_self,
      or_false, false_or] at hf
    rcases hf with ⟨rfl, -, rfl, -⟩ | ⟨rfl, -, rfl, -⟩
    · simp [Ast.nodes, Ast.nodesOfAll] at hg
    · obtain ⟨rfl, -, -⟩ : g = "f" ∧ args = [] ∧ span' = none := by
        simpa [Ast.nodes, Ast.nodesOfAll] using hg
      decide
  have hnodes : twoFunctionsTree.nodes.length ≤ 14 := by decide
  exact ⟨hlowered, hloop, hacyclic, hnodes,
    loopless_acyclic_ends hlowered hloop hacyclic hnodes false⟩

end Bronti
