import Bronti.Proofs.Endings
import Bronti.Proofs.ExtraFrame
import Bronti.Proofs.Roles

/-!
Braces around a statement that declares nothing. They open a frame in which nothing is declared, and
the statement in them gives nothing or a return, which passes the block as it is.
-/
namespace Bronti

/-! ## What a lowered statement comes to -/

open Run Eval

/-- A run that gives nothing or a return, if it gives an answer. -/
def Valueless (m : Run Result) : Prop :=
  ∀ s, (m s).Ends (fun r _ => r = .nothing ∨ ∃ n, r = .returned n) fun _ _ => True

namespace Valueless

variable {rec : Ast → Run Result}

theorem nothing : Valueless (pure .nothing) := fun _ => .inl rfl

theorem returned (n : Int) : Valueless (pure (.returned n)) := fun _ => .inr ⟨n, rfl⟩

theorem error (cause : Cause) (span : Option Span) : Valueless (Run.error cause span) :=
  fun _ => trivial

/-- Whatever comes first, the run that follows it says what is given. -/
theorem bind {α : Type} {m : Run α} {f : α → Run Result} (h : ∀ x, Valueless (f x)) :
    Valueless (m >>= f) := fun _ => bind_ends_last h

theorem inFrame {m : Run Result} (h : Valueless m) : Valueless (Run.inFrame m) := by
  intro s
  refine inFrame_ends (h s.opened) (fun r t hr => ?_) fun _ t _ => ?_
  · exact closing_ends (fun _ _ => hr) fun _ => trivial
  · exact closing_ends (fun _ _ => trivial) fun _ => trivial

theorem statements (as : List Ast) : Valueless (statementsWith rec as) := by
  induction as with
  | nil => exact nothing
  | cons a as ih =>
    refine bind fun r => ?_
    split
    · exact returned _
    · exact ih

theorem loop (condition body : Ast) (limit : Nat) :
    Valueless (loopWith rec condition body limit) := by
  induction limit with
  | zero => exact fun _ => trivial
  | succ limit ih =>
    refine bind fun b => ?_
    split
    · refine bind fun r => ?_
      split
      · exact returned _
      · exact ih
    · exact nothing

theorem functionStatement (name : String) (params : List String) (body : Ast)
    (span : Option Span) : Valueless (functionStatement name params body span) := by
  unfold Eval.functionStatement
  split
  · exact error _ _
  · refine bind fun made => ?_
    split
    · exact nothing
    · exact error _ _

theorem declaration (name : String) (initializer : Option Ast) (span : Option Span) :
    Valueless (declarationWith rec name initializer span) := by
  refine bind fun made => ?_
  split
  · exact error _ _
  · cases initializer with
    | none => exact nothing
    | some e => exact bind fun _ => bind fun _ => nothing

theorem assignment (name : String) (value : Ast) (span : Option Span) :
    Valueless (assignmentWith rec name value span) := by
  refine bind fun defined => ?_
  split
  · exact error _ _
  · exact bind fun _ => bind fun _ => nothing

theorem branch (condition : Ast) {positive negative : Option Ast}
    (hp : ∀ a ∈ positive, Valueless (rec a)) (hn : ∀ a ∈ negative, Valueless (rec a)) :
    Valueless (branchWith rec condition positive negative) := by
  refine bind fun b => ?_
  split
  · exact nothing
  · next a ha =>
    cases b with
    | true => exact hp a ha
    | false => exact hn a ha

end Valueless

theorem block_valueless {a : Ast} (h : a.role? = some .block) (steps : Nat) :
    Valueless (eval steps a) := by
  cases steps with
  | zero => exact fun _ => trivial
  | succ steps =>
    cases a with
    | block statements _ => exact .bind fun _ => .statements statements
    | _ => cases h

theorem body_valueless {held : Role → Prop} {a : Ast} (h : a.role? = some .body)
    (hfits : a.Fits held) (steps : Nat) : Valueless (eval steps a) := by
  cases steps with
  | zero => exact fun _ => trivial
  | succ steps =>
    cases a with
    | braced children _ =>
      obtain ⟨b, rfl, hb⟩ := hfits
      exact .bind fun _ => .inFrame (block_valueless hb steps)
    | _ => cases h

/-- A statement in its place gives nothing or a return. -/
theorem statement_valueless {held : Role → Prop} {a : Ast} (h : a.role? = some .statement)
    (hfits : ∀ b ∈ a.nodes, b.Fits held) (steps : Nat) : Valueless (eval steps a) := by
  obtain ⟨hfit, hinner⟩ := Ast.forall_nodes_iff.mp hfits
  cases steps with
  | zero => exact fun _ => trivial
  | succ steps =>
    refine .bind fun _ => ?_
    cases a with
    | function name params body span => exact .functionStatement name params body span
    | declaration name initializer span => exact .declaration name initializer span
    | assignment name value span => exact .assignment name value span
    | branch condition positive negative span =>
      obtain ⟨-, ⟨p, rfl, hp⟩, hn⟩ := hfit
      refine .branch condition (fun a ha => ?_) fun a ha => ?_
      · obtain rfl : p = a := Option.some.inj ha
        exact body_valueless hp (hinner p (by simp [Ast.children]) p p.mem_nodes_self) steps
      · have hmem : a ∈ (Ast.branch condition (some p) negative span).children := by
          simp [Ast.children, Option.mem_def.mp ha]
        exact body_valueless (hn a ha) (hinner a hmem a a.mem_nodes_self) steps
    | loop condition body span => exact .loop condition body steps
    | result value span => exact .bind fun n => .returned n
    | statement value span =>
      refine .bind fun r => ?_
      split
      · exact .returned _
      · exact .nothing
    | _ => cases h

/-! ## Braces around a statement -/

/-- The kinds of statements that declare nothing where they stand. -/
def undeclaringKinds : List String :=
  ["ASSIGNMENT", "IF", "WHILE", "RETURN", "EXPRESSION_STATEMENT"]

theorem Lowers.role_of_undeclaring {d : Datum} {a : Ast} (h : Lowers d a)
    (hkind : a.kind ∈ undeclaringKinds) :
    a.role? = some .statement ∧ a.isDeclaration = false := by
  cases h <;> first | exact ⟨rfl, rfl⟩ | simp [Ast.kind, undeclaringKinds] at hkind

theorem Ast.undeclaring_body {a : Ast} (h : a.role? = some .body) : a.Undeclaring := by
  cases a with
  | braced => exact .braced
  | _ => cases h

theorem Ast.undeclaring_expression {held : Role → Prop} {a : Ast}
    (hfits : ∀ b ∈ a.nodes, b.Fits held) (hrole : a.role? = some .expression) :
    a.Undeclaring := by
  obtain ⟨hfit, hinner⟩ := forall_nodes_iff.mp hfits
  refine .other ?_ fun b hb => ?_
  · cases a <;> first | rfl | cases hrole
  · have := sizeOf_lt_of_child hb
    exact undeclaring_expression (hinner b hb) (hfit.child_expression hrole hb)
termination_by sizeOf a

theorem Ast.undeclaring_statement {held : Role → Prop} {a : Ast}
    (hfits : ∀ b ∈ a.nodes, b.Fits held) (hrole : a.role? = some .statement)
    (hfree : a.isDeclaration = false) : a.Undeclaring := by
  obtain ⟨hfit, hinner⟩ := forall_nodes_iff.mp hfits
  refine .other hfree fun b hb => ?_
  rcases hfit.child_statement hrole hb with h | h
  · exact undeclaring_expression (hinner b hb) h
  · exact undeclaring_body h

section Braces

variable {rec : Ast → Run Result} {a : Ast} {s : State}

/-- A block of one statement gives what the statement gives. -/
theorem statements_single (h : Valueless (rec a)) : statementsWith rec [a] s = rec a s := by
  have hends := h s
  change Run.bind (rec a) _ s = rec a s
  unfold Run.bind
  cases hr : rec a s with
  | done r t =>
    rw [hr] at hends
    rcases hends with rfl | ⟨n, rfl⟩ <;> rfl
  | stopped e t => rfl
  | unfinished => rfl

/-- In braces, a statement is evaluated with an empty frame more, which is closed in the end. -/
theorem eval_braces {steps : Nat} (h : Valueless (eval steps a)) (inner outer : Option Span) :
    eval (steps + 2) (.braced [.block [a] inner] outer) s =
      Run.inFrame (fun u => eval steps a (u.visit (.block [a] inner)))
        (s.visit (.braced [.block [a] inner] outer)) := by
  have hblock : ∀ u, eval (steps + 1) (.block [a] inner) u =
      eval steps a (u.visit (.block [a] inner)) := fun u => statements_single h
  have hbraced : eval (steps + 2) (.braced [.block [a] inner] outer) s =
      Run.inFrame (eval (steps + 1) (.block [a] inner))
        (s.visit (.braced [.block [a] inner] outer)) := rfl
  rw [hbraced, funext hblock]

end Braces

/-- A run with an empty frame as the innermost one ends, once the frame is closed, in the frames in
which the run without it ends. -/
theorem tied_inFrame {α : Type} {o p : Outcome α} {m : Run α} {s : State} (hp : m s.opened = p)
    (h : o.Tied False Eq Eq (fun u v => v.frames = .empty :: u.frames ∧ v.printed = u.printed) p) :
    o.Tied False Eq Eq (fun u v => v.frames = u.frames ∧ v.printed = u.printed)
      (Run.inFrame m s) := by
  have hclose : ∀ {u v : State}, v.frames = .empty :: u.frames → ∃ w, v.close? = some w ∧
      w.frames = u.frames ∧ w.printed = v.printed := by
    intro u v hv
    have houter : v.outer = u.inner :: u.outer := (List.cons.inj hv).2
    exact ⟨_, State.close?_of_outer houter, rfl, rfl⟩
  unfold Run.inFrame
  rw [hp]
  cases h with
  | done answer state =>
    obtain ⟨w, hw, hframes, hprinted⟩ := hclose state.1
    simpa [closing, hw] using Outcome.Tied.done answer ⟨hframes, hprinted.trans state.2⟩
  | stopped stop state =>
    obtain ⟨w, hw, hframes, hprinted⟩ := hclose state.1
    simpa [closing, hw] using Outcome.Tied.stopped stop ⟨hframes, hprinted.trans state.2⟩
  | unfinished => exact .unfinished
  | late h _ => exact h.elim

/-- What holds of every answer of the first run may be added to what ties the answers. -/
theorem Outcome.Tied.with_answer {α β : Type} {late : Prop} {good : α → β → Prop}
    {bad : Stop → Stop → Prop} {ends : State → State → Prop} {P : α → Prop} {o : Outcome α}
    {p : Outcome β} (h : o.Tied late good bad ends p)
    (ho : o.Ends (fun a _ => P a) fun _ _ => True) :
    o.Tied late (fun a b => good a b ∧ P a) bad ends p := by
  cases h with
  | done answer state => exact .done ⟨answer, ho⟩ state
  | stopped stop state => exact .stopped stop state
  | unfinished => exact .unfinished
  | late h p => exact .late h p

/-- Braces around a lowered statement that declares nothing are unobservable: from any state, the
statement and the braced one end alike, with nothing or the same return, or with the same error,
with the same output and in the same frames. So it is, for any tree, with an empty frame more anywhere in
the chain, as long as the tree declares nothing in it. -/
theorem braces_unobservable {d : Datum} {a : Ast} {i j : Inspection} (h : lower d i = (.ok a, j))
    (hkind : a.kind ∈ undeclaringKinds) (inner outer : Option Span) (steps : Nat) (s : State) :
    (eval steps a s).Tied False (fun r r' => r = r' ∧ (r = .nothing ∨ ∃ n, r = .returned n)) Eq
      (fun t u => u.frames = t.frames ∧ u.printed = t.printed)
      (eval (steps + 2) (.braced [.block [a] inner] outer) s) ∧
    ∀ (b : Ast) (k : Nat) (t : State), k ≤ s.depth → (k = 0 → b.Undeclaring) →
      t.frames = s.frames.insertIdx k .empty → t.printed = s.printed →
      (eval steps b s).Tied False Eq Eq
        (fun u v => v.frames = u.frames.insertIdx k .empty ∧ v.printed = u.printed)
        (eval steps b t) := by
  refine ⟨?_, fun b k t hk hb hframes hprinted => extraFrame_tied steps hk hb hframes hprinted⟩
  have hlowers := lower_sound ⟨i, j, h⟩
  obtain ⟨hrole, hfree⟩ := hlowers.role_of_undeclaring hkind
  have hundeclaring := Ast.undeclaring_statement hlowers.nodes_fit hrole hfree
  have hvalueless := statement_valueless hrole hlowers.nodes_fit steps
  rw [eval_braces hvalueless]
  have htied := extraFrame_tied steps (a := a) (s := s) (k := 0)
    (t := ((s.visit (.braced [.block [a] inner] outer)).opened).visit (.block [a] inner))
    (Nat.zero_le _) (fun _ => hundeclaring)
    (by rw [State.frames_visit]; exact congrArg (Frame.empty :: ·) (s.frames_visit _))
    (by rw [State.printed_visit]; exact s.printed_visit _)
  exact (tied_inFrame rfl htied).with_answer (hvalueless s)

/-- An assignment in braces sets the variable outside them. -/
theorem braced_assignment_sets :
    ∃ t, eval 5 (.braced [.block [.assignment "x" (.literal "3" none) none] none] none)
        { State.initial false with inner := ⟨[("x", none)], []⟩ } = .done .nothing t ∧
      t.frames = [⟨[("x", some 3)], []⟩] := by
  have hlower : lower (.node "ASSIGNMENT" (.text "x") [.node "LITERAL" (.text "3") [] none] none)
      ⟨false, []⟩ = (.ok (.assignment "x" (.literal "3" none) none), ⟨false, []⟩) := by rfl
  have htied := (braces_unobservable hlower (by decide) none none 3
    { State.initial false with inner := ⟨[("x", none)], []⟩ }).1
  have hrun : eval 3 (.assignment "x" (.literal "3" none) none)
      { State.initial false with inner := ⟨[("x", none)], []⟩ } =
        .done .nothing { State.initial false with inner := ⟨[("x", some 3)], []⟩ } := by rfl
  rw [hrun] at htied
  generalize eval (3 + 2) _ _ = o at htied ⊢
  cases htied with
  | done answer state =>
    rw [← answer.1]
    exact ⟨_, rfl, state.1⟩

end Bronti
