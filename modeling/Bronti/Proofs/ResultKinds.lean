import Bronti.Proofs.ErrorLines
import Bronti.Proofs.Subruns

/-!
Results by the kind of the node. Statements come to nothing or to a return, expressions never to a
return. Which value an expression comes to shows in its form, but for a call: there it depends on
the functions that there are once the arguments are evaluated.
-/
namespace Bronti

open Run Eval

/-- The result `r` of a node and the state `t` that it leaves are such as belong to its kind; `s` is
the state behind the visit to the node, and the nodes inside are evaluated in `steps` steps. -/
def Ast.Gives (steps : Nat) (s : State) : Ast → Result → State → Prop
  | .literal .., r, _ | .reference .., r, _ => ∃ n, r = .int n
  | .operation _ op _ _, r, _ => ∃ o, Operator.ofSymbol? op = some o ∧
      if o.level = .sum ∨ o.level = .product then ∃ n, r = .int n else ∃ b, r = .bool b
  | .parens e _, r, t => eval steps e s = .done r t
  | .call x args _, r, t => ∃ ns u, intsWith (eval steps) args s = .done ns u ∧
      ((∃ n, r = .int n) ↔ (Chain.function? u.frames x).isSome) ∧
      (r = .nothing ↔ Chain.function? u.frames x = none ∧ x = builtinName) ∧
      ((∃ n, r = .int n) ∨ r = .nothing ∧ t = u.print ns)
  | _, r, _ => r = .nothing ∨ ∃ n, r = .returned n

section Nodes

variable {steps : Nat} {s : State}

theorem operation_gives (left : Ast) (op : String) (right : Ast) (span : Option Span) :
    (operationWith (eval steps) left op right span s).Ends
      (fun r t => (Ast.operation left op right span).Gives steps s r t) (fun _ _ => True) := by
  unfold operationWith
  cases ho : Operator.ofSymbol? op with
  | none => trivial
  | some o =>
    have hlevel : o.level = .sum ∨ o.level = .product ↔ ∃ f, o.meaning = .arithmetic f := by
      cases o <;> simp [Operator.level, Operator.meaning, Operator.total, Operator.divisive]
    dsimp only
    cases hm : o.meaning with
    | arithmetic f =>
      refine bind_ends_last fun a t => bind_ends_last fun b u => ?_
      refine bind_ends_last fun n v => ⟨o, ho, ?_⟩
      rw [if_pos (hlevel.mpr ⟨f, hm⟩)]
      exact ⟨n, rfl⟩
    | comparison f | logical f =>
      refine bind_ends_last fun a t => bind_ends_last fun b u => ⟨o, ho, ?_⟩
      rw [if_neg (by simp [hlevel, hm])]
      exact ⟨f a b, rfl⟩

theorem call_gives (x : String) (args : List Ast) (span : Option Span) :
    (callWith (eval steps) x args span s).Ends
      (fun r t => (Ast.call x args span).Gives steps s r t) (fun _ _ => True) := by
  have hargs := (intsWith (eval steps) args s).ends_self
  refine bind_ends (hargs.mono (fun _ _ h => h) fun _ _ _ => trivial) fun ns u hu => ?_
  have hfound : function? x u = .done (Chain.function? u.frames x) u := rfl
  rw [bind_of_done hfound]
  cases hf : Chain.function? u.frames x with
  | some f =>
    dsimp only
    split
    · exact bind_ends_last fun r t => ⟨ns, u, hu, by simp [hf], by simp [hf], .inl ⟨_, rfl⟩⟩
    · trivial
  | none =>
    by_cases hx : x = builtinName
    · have hprint : callBuiltin x ns u = .done true (u.print ns) := attempt_done (if_pos hx)
      dsimp only
      rw [bind_of_done hprint]
      exact ⟨ns, u, hu, by simp [hf], ⟨fun _ => ⟨hf, hx⟩, fun _ => rfl⟩, .inr ⟨rfl, rfl⟩⟩
    · have hprint : callBuiltin x ns u = .done false u := by
        simp [callBuiltin, attempt, State.callBuiltin?, hx]
      dsimp only
      rw [bind_of_done hprint]
      trivial

theorem program_valueless (rec : Ast → Run Result) (children : List Ast) :
    Valueless (programWith rec children) := by
  refine .bind fun r => ?_
  cases r with
  | returned n => exact .returned n
  | nothing | int _ | bool _ => exact .returned 0

/-- A node of a strict tree gives what belongs to its kind. -/
theorem node_gives {a : Ast} (ha : a.Strict) :
    (eval (steps + 1) a s).Ends (fun r t => a.Gives steps (s.visit a) r t) (fun _ _ => True) := by
  have hrun : eval (steps + 1) a s = nodeWith (eval steps) steps a (s.visit a) := rfl
  cases a with
  | program children span => exact program_valueless _ children _
  | block statements span => exact block_valueless rfl (steps + 1) s
  | braced children span => exact body_valueless rfl (Ast.strict_iff.mp ha).1 (steps + 1) s
  | function | declaration | assignment | branch | loop | result | statement =>
    exact statement_valueless rfl ha (steps + 1) s
  | operation left op right span => exact operation_gives left op right span
  | parens e span => exact (eval steps e _).ends_self.mono (fun _ _ h => h) fun _ _ _ => trivial
  | literal text span =>
    rw [hrun]
    exact bind_ends_last fun n t => ⟨n, rfl⟩
  | reference x span =>
    rw [hrun]
    refine bind_ends_last fun v t => ?_
    cases v with
    | some n => exact ⟨n, rfl⟩
    | none => trivial
  | call x args span => exact call_gives x args span
  | broken | hole => trivial

/-- An expression of a strict tree gives no return. -/
theorem expression_unreturned {a : Ast} (ha : a.Strict) :
    (eval steps a s).Ends (fun r _ => a.role? = some .expression → ∀ n, r ≠ .returned n)
      (fun _ _ => True) := by
  induction steps generalizing a s with
  | zero => trivial
  | succ steps ih =>
    refine (node_gives ha).mono ?_ fun _ _ _ => trivial
    rintro r t hgives hrole n rfl
    cases a with
    | operation left op right span =>
      obtain ⟨o, -, hr⟩ := hgives
      split at hr <;> exact nomatch hr
    | parens e span =>
      obtain ⟨hfit, hinner⟩ := Ast.strict_iff.mp ha
      exact (ih (hinner e (by simp [Ast.children]))).of_done hgives hfit n rfl
    | literal text span => exact nomatch hgives
    | reference x span => exact nomatch hgives
    | call x args span =>
      obtain ⟨ns, u, -, -, -, ⟨_, hr⟩ | ⟨hr, -⟩⟩ := hgives <;> cases hr
    | _ => cases hrole

end Nodes

/-- The tree that a text is lowered to is strict. -/
theorem Session.lowerText_strict {file text : String} {tracing : Bool} {tree : Ast}
    (h : (lowerText file tracing text).answer = .ok tree) : tree.Strict := by
  cases hp : Syntax.readProgram text with
  | error e =>
    simp only [lowerText, readProgram, hp, andThen, failed] at h
    cases h
  | ok p =>
    obtain rfl := Except.ok.inj ((lowerText_answer hp file tracing).symm.trans h)
    exact p.strict file

/-- Results follow the kind of the node. When a program that was lowered from a text is run, the
nodes that the run comes to, in the bodies of functions too, are nodes of the program. If such a
node gives a result, a statement, a body or a block gives nothing or a return; a literal, a
reference or arithmetic gives an integer, a comparison or a logical operation a boolean, and
parentheses what is inside them; a call gives an integer exactly if a function of its name is found
once the arguments are evaluated, and nothing exactly if none is found and the name is that of the
function that is built in, which has then printed one line. No expression gives a return. -/
theorem results_follow_kinds {file text : String} {tracing : Bool} {tree : Ast}
    (h : (Session.lowerText file tracing text).answer = .ok tree) (steps : Nat) (tracing' : Bool) :
    (evalProgram steps tree (.initial tracing')).Ends (fun r _ => ∃ n, r = .returned n)
      (fun _ _ => True) ∧
    ∀ p, tree.Evaluates steps tracing' p → p.node ∈ tree.nodes ∧ p.run.Ends
      (fun r t => (∃ k, p.steps = k + 1 ∧ p.node.Gives k (p.state.visit p.node) r t) ∧
        (p.node.role? = some .expression → ∀ n, r ≠ .returned n))
      (fun _ _ => True) := by
  have hstrict := Session.lowerText_strict h
  refine ⟨?_, fun p hp => ?_⟩
  · refine bind_ends_last fun r t => ?_
    cases r <;> exact ⟨_, rfl⟩
  · have hfresh : (State.initial tracing').EveryFunction fun f => tree.Inside f.body :=
      .initial tracing'
    obtain ⟨hinside, -⟩ := (Invariant.inside tree).evaluated hp
      (fun a ha b hb => Ast.mem_nodes_of_child ha hb) hfresh
    obtain ⟨steps, a, s⟩ := p
    have ha : a.Strict := fun b hb => hstrict b (hinside b hb)
    refine ⟨hinside a a.mem_nodes_self, ?_⟩
    cases steps with
    | zero => trivial
    | succ k =>
      exact ((node_gives ha).and (expression_unreturned ha)).mono
        (fun _ _ h => ⟨⟨k, rfl, h.1⟩, h.2⟩) fun _ _ _ => trivial

/-- In the body of a function, a call of the function that is built in gives nothing and has printed
what was passed. -/
theorem callee_prints_line :
    let call : Ast := .call "println" [.parens (.reference "a" (some ⟨"main", 1, 21, "a"⟩))
      (some ⟨"main", 1, 20, ""⟩)] (some ⟨"main", 1, 12, "println"⟩)
    ∃ tree s t,
      (Session.lowerText "main" false "fun f(a) { println((a)) }\nf(7)").answer = .ok tree ∧
        tree.Evaluates 9 false ⟨3, call, s⟩ ∧ Point.run ⟨3, call, s⟩ = .done .nothing t ∧
        call.Gives 2 (s.visit call) .nothing t ∧ t.printed = [[7]] := by
  intro call
  let body : Syntax.Body := .braced ⟨9, 1, 10⟩ ⟨11, 1, 12⟩ [.expression (.call "println"
    [.parens (.reference "a" ⟨20, 1, 21⟩) ⟨19, 1, 20⟩] ⟨11, 1, 12⟩) ⟨11, 1, 12⟩]
  let p : Syntax.Program := ⟨.start, [.function "f" ["a"] body .start,
    .expression (.call "f" [.literal "7" ⟨28, 2, 3⟩] ⟨25, 1, 26⟩) ⟨25, 1, 26⟩]⟩
  have hread : Syntax.readProgram "fun f(a) { println((a)) }\nf(7)" = .ok p := rfl
  have hlower := Session.lowerText_answer hread "main" false
  -- the function is declared, the argument is evaluated and bound, and then comes the body
  let f : Function := ⟨["a"], body.toAst "main"⟩
  let s : State := ⟨⟨[], [("f", f)]⟩, [], [], false, []⟩
  let t : State := ⟨⟨[("a", some 7)], []⟩, s.frames, [], false, []⟩
  have hdeclared : statementsWith (eval 8) [.function "f" ["a"] f.body (some ⟨"main", 1, 1, "f"⟩)]
      (.initial false) = .done .nothing s := rfl
  have hgiven : intsWith (eval 6) [.literal "7" (some ⟨"main", 2, 3, "7"⟩)] s = .done [7] s := rfl
  have hbound : bindParams f.params [7] s.opened = .done () t := rfl
  have hrun : Point.run ⟨3, call, t.opened⟩ = .done .nothing (t.opened.print [7]) := rfl
  have hcomes : (p.toAst "main").Evaluates 9 false ⟨3, call, t.opened⟩ := by
    refine ⟨_, rfl, ?_⟩
    refine .head (.mk (.block [_] hdeclared)) ?_
    refine .head (.mk .statement) ?_
    refine .head (.mk (.body hgiven (f := f) rfl rfl hbound)) ?_
    refine .head (.mk .braced) ?_
    refine .head (.mk (.block [] rfl)) ?_
    exact .head (.mk .statement) .refl
  obtain ⟨⟨k, hk, hgives⟩, -⟩ := ((results_follow_kinds hlower 9 false).2 _ hcomes).2.of_done hrun
  cases hk
  exact ⟨_, _, _, hlower, hcomes, hrun, hgives, rfl⟩

end Bronti
