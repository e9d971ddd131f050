import Bronti.Proofs.Decimal
import Bronti.Proofs.Faultless
import Bronti.Proofs.Piecewise
import Bronti.Proofs.Placement

/-!
The lines of errors. An error arises at a node of the program, whose span it has; a node that uses a
name begins, blanks apart, with the name. So the name that an error is about stands on the line of the
error, or behind it with nothing but blanks between.
-/
namespace Bronti

/-! ## Errors of a tree -/

/-- The name of a variable or a function that a node uses. -/
def Ast.used? : Ast → Option String
  | .assignment x _ _ | .reference x _ | .call x _ _ => some x
  | _ => none

/-- The name that is used where it must not be, or not in this way. -/
def Cause.used? : Cause → Option String
  | .undeclared x | .unset x | .unknownFunction x | .arity x _ _ => some x
  | _ => none

/-- The kinds of errors that are about a use of a name. -/
theorem Cause.used_iff (c : Cause) : (∃ x, c.used? = some x) ↔
    c.kind = .undefinedVariable ∨ c.kind = .undefinedFunction ∨ c.kind = .arityMismatch := by
  cases c <;> simp [used?, kind]

/-- An error about a use of a name arises where the name is used. -/
theorem Ast.Raises.used {a : Ast} {c : Cause} {x : String} (h : a.Raises c)
    (hx : c.used? = some x) : a.used? = some x := by
  cases h with
  | undeclared | unset | unknownFunction | arity => exact hx
  | arithmetic h =>
    have hkind := (Cause.used_iff c).mp ⟨x, hx⟩
    simp [h.error_kind] at hkind
  | badLiteral h =>
    rw [literalValue_error h] at hx
    cases hx
  | _ => cases hx

/-- All nodes of a tree are nodes of another. -/
def Ast.Inside (root a : Ast) : Prop := ∀ b ∈ a.nodes, b ∈ root.nodes

/-- Trees and functions inside a tree, which then raises every error. -/
def Invariant.inside (root : Ast) : Invariant where
  state := State.EveryFunction fun f => root.Inside f.body
  tree := root.Inside
  value _ := True
  fault _ := True
  error e := ∃ a ∈ root.nodes, a.Raises e.cause ∧ a.span = e.span
  child ha hb c hc := ha c (Ast.mem_nodes_of_child hb hc)
  own_fault _ _ := trivial
  own_error ha h := ⟨_, ha _ (Ast.mem_nodes_self _), h, rfl⟩
  last_frame := trivial
  zero := trivial
  literal _ := trivial
  arithmetic _ _ _ := trivial
  visited a hs := hs.of_kept (.of_frames (State.frames_visit _ a))
  stored _ _ := trivial
  body hs hf := hs.function hf
  declared hs ht := hs.declare ht
  assigned hs _ ht := hs.of_kept (State.kept_set ht)
  defined hs ha ht :=
    hs.declareFunction (fun c hc => ha c (Ast.mem_nodes_of_child (by simp [Ast.children]) hc)) ht
  printed hs _ ht := hs.of_kept (.of_frames (State.frames_callBuiltin ht))
  opened hs := hs.opened
  closed hs ht := hs.close ht

/-- Every error of a program arises at a node of it and has the span of this node. -/
theorem evaluate_errors (steps : Nat) (tracing : Bool) (tree : Ast) :
    (evaluate steps tracing tree).Ends (fun _ _ => True) (fun e _ => ∀ err, e = .error err →
      ∃ a ∈ tree.nodes, a.Raises err.cause ∧ a.span = err.span) := by
  have htrees : ∀ a ∈ tree.children, tree.Inside a := fun a ha b hb =>
    Ast.mem_nodes_of_child ha hb
  have hfresh : (State.initial tracing).EveryFunction fun f => tree.Inside f.body :=
    .initial tracing
  have hkept := (Invariant.inside tree).evaluate_keeps htrees (fun _ => trivial) hfresh steps
  refine hkept.mono (fun _ _ _ => trivial) fun e _ h err he => ?_
  subst he
  exact h.2

namespace Syntax

open Text (Position)

/-! ## Uses of names -/

/-- Where the tree uses a name, there is a node of the source that begins with the name and has the
same place. -/
def UsesAt (file : String) (ns : List Node) (a : Ast) : Prop :=
  ∀ b ∈ a.nodes, ∀ x, b.used? = some x →
    ∃ n ∈ ns, n.tokens.head? = some (.name x) ∧ b.span = some (.ofPosition file n.pos x)

namespace UsesAt

variable {file : String} {ms ns : List Node} {a : Ast}

theorem mono (h : UsesAt file ms a) (hs : ∀ n ∈ ms, n ∈ ns) : UsesAt file ns a := by
  intro b hb x hx
  obtain ⟨n, hn, hhead⟩ := h b hb x hx
  exact ⟨n, hs n hn, hhead⟩

/-- From the node itself and from the nodes inside it. -/
theorem of_children (hown : ∀ x, a.used? = some x →
      ∃ n ∈ ns, n.tokens.head? = some (.name x) ∧ a.span = some (.ofPosition file n.pos x))
    (h : ∀ b ∈ a.children, UsesAt file ns b) : UsesAt file ns a := by
  intro c hc
  rcases Ast.mem_nodes.mp hc with rfl | ⟨b, hb, hc⟩
  · exact hown
  · exact h b hb c hc

/-- A node that uses no name. -/
theorem of_unused (hown : a.used? = none) (h : ∀ b ∈ a.children, UsesAt file ns b) :
    UsesAt file ns a := of_children (by simp [hown]) h

end UsesAt

mutual

theorem Expr.uses (file : String) (before : List Token) (e : Expr) :
    UsesAt file (e.nodes before) (e.toAst file) := by
  match e with
  | .literal text pos => exact .of_unused rfl (by simp [Expr.toAst, Ast.children])
  | .reference name pos =>
    refine .of_children (fun x hx => ?_) (by simp [Expr.toAst, Ast.children])
    cases hx
    exact ⟨_, List.mem_singleton_self _, rfl, rfl⟩
  | .call name args pos =>
    refine .of_children (fun x hx => ?_) fun b hb => ?_
    · cases hx
      exact ⟨_, List.mem_cons_self, rfl, rfl⟩
    · exact (uses_of_items file _ args b hb).mono fun n hn => .tail _ hn
  | .parens inner pos =>
    refine .of_unused rfl fun b hb => ?_
    obtain rfl := List.mem_singleton.mp hb
    exact (inner.uses file _).mono fun n hn => .tail _ hn
  | .operation left op right =>
    refine .of_unused rfl 
      (List.forall_mem_cons.mpr ⟨?_, List.forall_mem_singleton.mpr ?_⟩)
    · exact (left.uses file _).mono fun n hn => .tail _ (List.mem_append_left _ hn)
    · exact (right.uses file _).mono fun n hn => .tail _ (List.mem_append_right _ hn)

theorem Expr.uses_of_items (file : String) (before : List Token) (es : List Expr) :
    ∀ a ∈ toAsts file es, UsesAt file (nodesOfItems before es) a := by
  match es with
  | [] => simp [toAsts]
  | e :: es =>
    refine List.forall_mem_cons.mpr ⟨?_, fun a ha => ?_⟩
    · exact (e.uses file before).mono fun n hn => List.mem_append_left _ hn
    · exact (uses_of_items file _ es a ha).mono fun n hn => List.mem_append_right _ hn

end

mutual

theorem Stmt.uses (file : String) (before : List Token) (unread : Bool) (s : Stmt) :
    UsesAt file (s.nodes before unread) (s.toAst file) := by
  match s with
  | .function name params body pos =>
    refine .of_unused rfl (List.forall_mem_singleton.mpr ?_)
    exact (body.uses file _).mono fun n hn => .tail _ hn
  | .declaration name none pos => exact .of_unused rfl (by simp [Ast.children, Stmt.toAst])
  | .declaration name (some e) pos | .result e pos | .expression e pos =>
    refine .of_unused rfl (List.forall_mem_singleton.mpr ?_)
    exact (e.uses file _).mono fun n hn => .tail _ hn
  | .assignment name value pos =>
    refine .of_children (fun x hx => ?_) (List.forall_mem_singleton.mpr ?_)
    · cases hx
      exact ⟨_, List.mem_cons_self, rfl, rfl⟩
    · exact (value.uses file _).mono fun n hn => .tail _ hn
  | .loop condition body pos | .branch condition body none pos =>
    refine .of_unused rfl (List.forall_mem_cons.mpr ⟨?_, List.forall_mem_singleton.mpr ?_⟩)
    · exact (condition.uses file _).mono fun n hn => .tail _ (List.mem_append_left _ hn)
    · exact (body.uses file _).mono fun n hn => .tail _ (List.mem_append_right _ hn)
  | .branch condition positive (some negative) pos =>
    refine .of_unused rfl (List.forall_mem_cons.mpr
      ⟨?_, List.forall_mem_cons.mpr ⟨?_, List.forall_mem_singleton.mpr ?_⟩⟩)
    · exact (condition.uses file _).mono fun n hn => .tail _ (List.mem_append_left _ (List.mem_append_left _ hn))
    · exact (positive.uses file _).mono fun n hn => .tail _ (List.mem_append_left _ (List.mem_append_right _ hn))
    · exact (negative.uses file _).mono fun n hn => .tail _ (List.mem_append_right _ hn)

theorem Body.uses (file : String) (before : List Token) (b : Body) :
    UsesAt file (b.nodes before) (b.toAst file) := by
  match b with
  | .braced brace pos statements =>
    refine .of_unused rfl (List.forall_mem_singleton.mpr (.of_unused rfl fun a ha => ?_))
    exact (Stmt.uses_of_all file _ false statements a ha).mono fun n hn => .tail _ (.tail _ hn)

theorem Stmt.uses_of_all (file : String) (before : List Token) (unread : Bool) (ss : List Stmt) :
    ∀ a ∈ Stmt.toAsts file ss, UsesAt file (Stmt.nodesOfAll before unread ss) a := by
  match ss with
  | [] => simp [Stmt.toAsts]
  | s :: ss =>
    refine List.forall_mem_cons.mpr ⟨?_, fun a ha => ?_⟩
    · exact (s.uses file before unread).mono fun n hn => List.mem_append_left _ hn
    · exact (Stmt.uses_of_all file _ _ ss a ha).mono fun n hn => List.mem_append_right _ hn

end

theorem Program.uses (file : String) (p : Program) : UsesAt file p.nodes (p.toAst file) := by
  refine .of_unused rfl (List.forall_mem_singleton.mpr (.of_unused rfl fun a ha => ?_))
  exact (Stmt.uses_of_all file [] false p.statements a ha).mono fun n hn => .tail _ (.tail _ hn)

/-! ## Texts -/

/-- The name stands in the text as a token of its own, with `front` before it. -/
def NameStands (x : String) (front text : List Char) : Prop :=
  ∃ ts left after, LexedTo ts text left ∧ text = front ++ behindGap left ∧
    Token.read? (behindGap left) = some (.name x, after)

/-- A node that begins with a name stands where the name does, or with blanks only up to there. -/
theorem Node.Follows.name_stands {n : Node} {text : List Char} {x : String} (h : n.Follows text)
    (hx : n.tokens.head? = some (.name x)) : ∃ front blanks, n.pos = Position.start.advance front ∧
      NameStands x (front ++ blanks) text ∧ Blank blanks := by
  obtain ⟨front, blanks, left, after, hpos, htext, hb, -, hbefore, htokens, -⟩ := h
  obtain ⟨more, hmore⟩ := List.head?_eq_some_iff.mp hx
  rw [hmore] at htokens
  cases htokens with
  | token hread _ =>
    exact ⟨front, blanks, hpos, ⟨_, left, _, hbefore, by simp [htext], hread⟩, hb⟩

end Syntax

/-- A text runs into an error where it is read as a program whose evaluation comes to it. -/
theorem Session.runText_error_iff {file : String} {tracing : Bool} {text : String} {e : EvalError} :
    (runText file tracing text).answer = .error (.stopped (.error e)) ↔
      ∃ p s, Syntax.readProgram text = .ok p ∧
        evaluate enoughSteps tracing (p.toAst file) = .stopped (.error e) s := by
  constructor
  · intro h
    cases hp : Syntax.readProgram text with
    | error e =>
      simp only [runText, lowerText, readProgram, hp, andThen, failed] at h
      cases e <;> cases h
    | ok p =>
      have hlower := lowerText_answer hp file tracing
      rcases andThen_error h with herror | ⟨a, ha, hrun⟩
      · rw [hlower] at herror
        cases herror
      · obtain rfl := Except.ok.inj (hlower.symm.trans ha)
        unfold run at hrun
        split at hrun
        · cases hrun
        · next s he =>
          cases hrun
          exact ⟨p, s, rfl, he⟩
        · cases hrun
  · rintro ⟨p, s, hp, hrun⟩
    simp only [runText, andThen, lowerText_answer hp file tracing, run, hrun]

/-- An error about a name arises where the name is used: the name stands in the text, with its tabs
expanded, behind the place whose line the error gives, with nothing but blanks between. So it stands
on this line unless a newline is among the blanks. -/
theorem error_names_use {file : String} {tracing : Bool} {text : String} {e : EvalError} {x : String}
    (h : (Session.runText file tracing text).answer = .error (.stopped (.error e)))
    (hx : e.cause.used? = some x) :
    ∃ front blanks, Syntax.NameStands x (front ++ blanks) (Text.expandTabs text.toList) ∧
      Syntax.Blank blanks ∧ e.line? = some (1 + front.count '\n') := by
  obtain ⟨p, s, hp, hrun⟩ := Session.runText_error_iff.mp h
  obtain ⟨a, ha, hraises, hspan⟩ := (evaluate_errors _ _ _).of_stopped hrun e rfl
  obtain ⟨n, hn, hhead, hplace⟩ := p.uses file a ha x (hraises.used hx)
  obtain ⟨c', hc⟩ := Syntax.readProgram_ok hp
  have htrip := Syntax.program_placed (Syntax.Cursor.ofText_at _) hc
  have hfollows := (htrip.stands n hn).follows (p.nodes_within n hn)
    (Syntax.readProgram_lexed hp).2
  obtain ⟨front, blanks, hpos, hstands, hb⟩ := hfollows.name_stands hhead
  refine ⟨front, blanks, hstands, hb, ?_⟩
  have hline : n.pos.line = 1 + front.count '\n' := by
    rw [hpos, Text.Position.line_advance]
    rfl
  rw [EvalError.line?, ← hspan, hplace, Option.map_some, ← hline]
  rfl

/-- A return of a name that is not declared, on the second line. -/
theorem unset_names_use :
    ∃ e front blanks, (Session.runText "<input>" false "// none\nreturn x").answer =
        .error (.stopped (.error e)) ∧ e.cause.used? = some "x" ∧
      Syntax.NameStands "x" (front ++ blanks) (Text.expandTabs "// none\nreturn x".toList) ∧
      Syntax.Blank blanks ∧ e.line? = some (1 + front.count '\n') := by
  let p : Syntax.Program := ⟨⟨8, 2, 1⟩, [.result (.reference "x" ⟨14, 2, 7⟩) ⟨8, 2, 1⟩]⟩
  let e : EvalError := ⟨.unset "x", some ⟨"<input>", 2, 7, "x"⟩⟩
  have hrun : ∀ k, ∃ s, evaluate (k + 4) false (p.toAst "<input>") = .stopped (.error e) s :=
    fun _ => ⟨_, rfl⟩
  obtain ⟨s, hs⟩ := hrun (enoughSteps - 4)
  have he : (Session.runText "<input>" false "// none\nreturn x").answer =
      .error (.stopped (.error e)) := Session.runText_error_iff.mpr ⟨p, s, rfl, hs⟩
  obtain ⟨front, blanks, hstands, hb, hline⟩ := error_names_use he rfl
  exact ⟨e, front, blanks, he, rfl, hstands, hb, hline⟩

/-- The name stands two lines below the return: the error is about the name, but gives the line of the
return, on which the name does not stand. -/
theorem line_of_return_given :
    ∃ e, (Session.runText "<input>" false "return\n\nx").answer = .error (.stopped (.error e)) ∧
      e.cause = .unset "x" ∧ e.line? = some 1 ∧
      Text.lines "return\n\nx".toList = ["return".toList, [], "x".toList] ∧
      'x' ∉ "return".toList := by
  let p : Syntax.Program := ⟨.start, [.result (.reference "x" ⟨6, 1, 7⟩) .start]⟩
  let e : EvalError := ⟨.unset "x", some ⟨"<input>", 1, 7, "x"⟩⟩
  have hrun : ∀ k, ∃ s, evaluate (k + 4) false (p.toAst "<input>") = .stopped (.error e) s :=
    fun _ => ⟨_, rfl⟩
  obtain ⟨s, hs⟩ := hrun (enoughSteps - 4)
  exact ⟨e, Session.runText_error_iff.mpr ⟨p, s, rfl, hs⟩, rfl, rfl, by decide, by decide⟩

end Bronti
