import Bronti.Proofs.Braces
import Bronti.Proofs.Joining
import Bronti.Proofs.ParsedTrees
import Bronti.Proofs.Returning
import Bronti.Proofs.Unspanned

/-!
Texts run one after another. Where a program runs through, what follows it runs in the state that it
leaves, so that two texts run one after another leave what the text that joins them leaves.
-/
namespace Bronti

/-! ## Trees and places -/

namespace Syntax

theorem Expr.unspanned_toAst (file file' : String) (e : Expr) :
    (e.toAst file).unspanned = (e.bare.toAst file').unspanned := by
  match e with
  | .literal _ _ | .reference _ _ => rfl
  | .call name args _ =>
    have hargs : (args.map (toAst file)).map Ast.unspanned =
        ((args.map bare).map (toAst file')).map Ast.unspanned := by
      simp only [List.map_map, List.map_inj_left]
      exact fun e _ => e.unspanned_toAst file file'
    rw [bare, toAst, toAst, toAsts_eq, toAsts_eq, bare_of_each, Ast.unspanned_eq, Ast.unspanned_eq]
    simp only [Ast.mapChildren, hargs, Ast.withoutSpan]
  | .parens inner _ =>
    rw [bare, toAst, toAst, Ast.unspanned_eq, Ast.unspanned_eq]
    simp only [Ast.mapChildren, inner.unspanned_toAst file file', Ast.withoutSpan]
  | .operation left op right =>
    rw [bare, toAst, toAst, Ast.unspanned_eq, Ast.unspanned_eq]
    simp only [Ast.mapChildren, left.unspanned_toAst file file', right.unspanned_toAst file file',
      Ast.withoutSpan]

mutual

theorem Stmt.unspanned_toAst (file file' : String) (s : Stmt) :
    (s.toAst file).unspanned = (s.bare.toAst file').unspanned := by
  match s with
  | .function name params body _ =>
    rw [Stmt.bare, Stmt.toAst, Stmt.toAst, Ast.unspanned_eq, Ast.unspanned_eq]
    simp only [Ast.mapChildren, body.unspanned_toAst file file', Ast.withoutSpan]
  | .declaration name none _ => rfl
  | .declaration name (some e) _ =>
    rw [Stmt.bare, Stmt.toAst, Stmt.toAst, Ast.unspanned_eq, Ast.unspanned_eq]
    simp only [Ast.mapChildren, Option.map_some, e.unspanned_toAst file file', Ast.withoutSpan]
  | .loop condition body _ =>
    rw [Stmt.bare, Stmt.toAst, Stmt.toAst, Ast.unspanned_eq, Ast.unspanned_eq]
    simp only [Ast.mapChildren, condition.unspanned_toAst file file',
      body.unspanned_toAst file file', Ast.withoutSpan]
  | .branch condition positive none _ =>
    rw [Stmt.bare, Stmt.toAst, Stmt.toAst, Ast.unspanned_eq, Ast.unspanned_eq]
    simp only [Ast.mapChildren, Option.map_some, Option.map_none,
      condition.unspanned_toAst file file', positive.unspanned_toAst file file', Ast.withoutSpan]
  | .branch condition positive (some negative) _ =>
    rw [Stmt.bare, Stmt.toAst, Stmt.toAst, Ast.unspanned_eq, Ast.unspanned_eq]
    simp only [Ast.mapChildren, Option.map_some, condition.unspanned_toAst file file',
      positive.unspanned_toAst file file', negative.unspanned_toAst file file', Ast.withoutSpan]
  | .result value _ | .assignment _ value _ | .expression value _ =>
    rw [Stmt.bare, Stmt.toAst, Stmt.toAst, Ast.unspanned_eq, Ast.unspanned_eq]
    simp only [Ast.mapChildren, value.unspanned_toAst file file', Ast.withoutSpan]

theorem Body.unspanned_toAst (file file' : String) (b : Body) :
    (b.toAst file).unspanned = (b.bare.toAst file').unspanned := by
  match b with
  | .braced brace pos statements =>
    rw [Body.bare, Body.toAst, Body.toAst, Ast.unspanned_eq, Ast.unspanned_eq]
    simp only [Ast.mapChildren, List.map_cons, List.map_nil, Ast.unspanned_eq (.block _ _),
      Stmt.unspanned_toAsts file file' statements, Ast.withoutSpan]

theorem Stmt.unspanned_toAsts (file file' : String) (ss : List Stmt) :
    (Stmt.toAsts file ss).map Ast.unspanned =
      (Stmt.toAsts file' (Stmt.bareEach ss)).map Ast.unspanned := by
  match ss with
  | [] => rfl
  | s :: ss =>
    simp only [Stmt.toAsts, Stmt.bareEach, List.map_cons, s.unspanned_toAst file file',
      Stmt.unspanned_toAsts file file' ss]

end

end Syntax

/-! ## Programs run one after another -/

open Run Eval

/-- Run as a program from `s`, the tree comes to its end in `t`, with no error and no return that
leaves it. -/
def RunsThrough (tree : Ast) (s t : State) : Prop :=
  ∃ steps r, firstWith (eval steps) tree.children s = .done r t ∧ ∀ n, r ≠ .returned n

/-- With enough steps, the tree run as a program from `s` leaves `e`. -/
def EndsWith (tree : Ast) (s : State) (e : Remains Result) : Prop :=
  ∃ steps, (evalProgram steps tree s).remains = some e

/-- What a program leaves, it leaves in any more steps. -/
theorem remains_of_le {tree : Ast} {s : State} {e : Remains Result} {n m : Nat} (h : n ≤ m)
    (he : (evalProgram n tree s).remains = some e) : (evalProgram m tree s).remains = some e := by
  have hsame : List.Forall₂ Likeness.unspanned.tree tree.children tree.children :=
    List.forall₂_same.mpr fun _ _ => rfl
  exact Likeness.remains_of_follows
    (fun _ => Correspondence.program_follows (Likeness.unspanned_respects h) hsame) (.refl s) he

theorem EndsWith.unique {tree : Ast} {s : State} {e f : Remains Result} (he : EndsWith tree s e)
    (hf : EndsWith tree s f) : e = f := by
  obtain ⟨n, hn⟩ := he
  obtain ⟨m, hm⟩ := hf
  have h := remains_of_le (Nat.le_max_left n m) hn
  rw [remains_of_le (Nat.le_max_right n m) hm] at h
  exact (Option.some.inj h).symm

/-- How a program ends once its statements have. -/
def programEnd : Result → Run Result
  | .returned n => pure (.returned n)
  | _ => pure (.returned 0)

section Sequence

variable {as bs cs : List Ast} {s t : State}

theorem evalProgram_block (steps : Nat) (as : List Ast) (inner outer : Option Span) (s : State) :
    evalProgram (steps + 1) (.program [.block as inner] outer) s =
      (statementsWith (eval steps) as >>= programEnd) (s.visit (.block as inner)) := by
  rfl

theorem statements_unspanned {n m : Nat} (h : n ≤ m)
    (hab : as.map Ast.unspanned = bs.map Ast.unspanned) (depth : Nat) :
    Likeness.unspanned.correspondence.Follows depth Eq (statementsWith (eval n) as)
      (statementsWith (eval m) bs) :=
  Correspondence.statements_follow (Likeness.unspanned_respects h)
    (forall₂_of_map_eq hab fun _ _ _ _ hxy => hxy)

theorem program_unspanned {n m : Nat} (h : n ≤ m)
    (hab : as.map Ast.unspanned = bs.map Ast.unspanned) (depth : Nat) :
    Likeness.unspanned.correspondence.Follows depth Eq
      (statementsWith (eval n) as >>= programEnd) (statementsWith (eval m) bs >>= programEnd) := by
  apply (statements_unspanned h hab depth).andThen
  intro r
  cases r <;> exact Correspondence.pure_follows rfl

theorem RunsThrough.statements {inner outer : Option Span}
    (h : RunsThrough (.program [.block as inner] outer) s t) :
    ∃ steps, statementsWith (eval steps) as (s.visit (.block as inner)) = .done .nothing t := by
  obtain ⟨steps, r, hdone, hr⟩ := h
  cases steps with
  | zero => cases hdone
  | succ steps =>
    have hrun : statementsWith (eval steps) as (s.visit (.block as inner)) = .done r t := hdone
    have hvalueless : Valueless (statementsWith (eval steps) as) := .statements as
    have hends := hvalueless (s.visit (.block as inner))
    rw [hrun] at hends
    rcases hends with rfl | ⟨n, rfl⟩
    · exact ⟨steps, hrun⟩
    · exact absurd rfl (hr n)

/-- Behind statements that were passed without a return, a program goes on with the others, in a
state that is the same but for spans if the statements are, and in as many steps or more. -/
theorem program_goes_on {n m : Nat} (h : n ≤ m)
    (hdone : statementsWith (eval n) as s = .done .nothing t) {before : List Ast}
    (hab : as.map Ast.unspanned = before.map Ast.unspanned) {u : State}
    (hsu : s.Same u) (after : List Ast) :
    ∃ v, t.Same v ∧ (statementsWith (eval m) (before ++ after) >>= programEnd) u =
      (statementsWith (eval m) after >>= programEnd) v := by
  have hremains := Likeness.remains_of_follows (statements_unspanned h hab) hsu
    (congrArg Outcome.remains hdone)
  obtain ⟨v, hv, htv⟩ := Outcome.of_remains_done hremains
  refine ⟨v, htv, ?_⟩
  change Run.bind _ programEnd _ = Run.bind _ programEnd _
  unfold Run.bind
  rw [statements_append after hv]

/-- Where one program runs through, another one run after it leaves what the program leaves that has
the statements of both, but for spans. -/
theorem runs_in_sequence {i i' i'' j j' j'' : Option Span}
    (hall : cs.map Ast.unspanned = (as ++ bs).map Ast.unspanned)
    (h : RunsThrough (.program [.block as i] j) s t) (e : Remains Result) :
    EndsWith (.program [.block bs i'] j') t e ↔ EndsWith (.program [.block cs i''] j'') s e := by
  obtain ⟨k, hdone⟩ := h.statements
  rw [List.map_append] at hall
  obtain ⟨before, after, rfl, hbefore, hafter⟩ := List.map_eq_append_iff.mp hall
  have hvisit : (s.visit (.block as i)).Same (s.visit (.block (before ++ after) i'')) :=
    (State.Same.visit s _).trans (State.Same.visit s _).symm
  constructor
  · rintro ⟨n, hn⟩
    cases n with
    | zero => cases hn
    | succ n =>
      obtain ⟨u, hu, hwhole⟩ :=
        program_goes_on (Nat.le_max_left k n) hdone hbefore.symm hvisit after
      refine ⟨max k n + 1, ?_⟩
      rw [evalProgram_block] at hn ⊢
      rw [hwhole]
      exact Likeness.remains_of_follows (program_unspanned (Nat.le_max_right k n) hafter.symm)
        ((State.Same.visit t _).trans hu) hn
  · rintro ⟨n, hn⟩
    obtain ⟨u, hu, hwhole⟩ := program_goes_on (Nat.le_max_left k n) hdone hbefore.symm hvisit after
    -- the whole program leaves the same in more steps, in which the first one runs through
    have hmore := remains_of_le (Nat.le_succ_of_le (Nat.le_max_right k n)) hn
    rw [evalProgram_block, hwhole] at hmore
    refine ⟨max k n + 1, ?_⟩
    rw [evalProgram_block]
    exact Likeness.remains_of_follows (program_unspanned (Nat.le_refl _) hafter)
      (hu.symm.trans (State.Same.visit t _).symm) hmore

end Sequence

/-! ## Texts -/

theorem Session.lowerText_answer {text : String} {p : Syntax.Program}
    (h : Syntax.readProgram text = .ok p) (file : String) (tracing : Bool) :
    (lowerText file tracing text).answer = .ok (p.toAst file) := by
  have hlowers := (Syntax.readProgram_wellFormed h).lowers file
  have hlower := lower_program hlowers rfl tracing
  simp only [lowerText, readProgram, h, andThen, hlower]

open Syntax (readProgram tokensOf EndsInOpenComment Stmt maxDepth)

/-- Two texts run one after another do what the text does that joins them by a newline. This text is
read as the statements of the first and then those of the second, up to places, unless these are
nested too deep, if no name comes to stand before a parenthesis and the newline does not come into a
comment. And from any state in which the first one runs through, the second one run after it ends
if and only if the joined one does, with the same result or the same cause of an error, having
printed the same, and in the same frames but for the spans in the bodies of functions. -/
theorem texts_run_piecewise {a b : String} {p q : Syntax.Program} (ha : readProgram a = .ok p)
    (hb : readProgram b = .ok q)
    (hseam : (∀ x, (tokensOf a).getLast? ≠ some (.name x)) ∨
      (tokensOf b).head? ≠ some (.mark .openParen))
    (hcomment : ¬ EndsInOpenComment a.toList) (file file' file'' : String) (tracing : Bool) :
    (∃ r, readProgram (a ++ "\n" ++ b) = .ok r ∧
      r.statements.map Stmt.bare = (p.statements ++ q.statements).map Stmt.bare ∧
      ∃ x y z, (Session.lowerText file tracing a).answer = .ok x ∧
        (Session.lowerText file' tracing b).answer = .ok y ∧
        (Session.lowerText file'' tracing (a ++ "\n" ++ b)).answer = .ok z ∧
        ∀ s t, RunsThrough x s t → ∀ e, EndsWith y t e ↔ EndsWith z s e) ∨
    (maxDepth < max p.depth q.depth ∧ readProgram (a ++ "\n" ++ b) = .error .tooDeep) := by
  rcases Syntax.readProgram_joined ha hb hseam hcomment with ⟨r, hr, hbare⟩ | hdeep
  · have hstatements : Stmt.bareEach r.statements =
        Stmt.bareEach p.statements ++ Stmt.bareEach q.statements := by
      have hmap := congrArg Syntax.Program.statements hbare
      simpa [Syntax.Program.bare, Syntax.Program.followedBy, Stmt.bare_of_each] using hmap
    have htrees : (Stmt.toAsts file'' r.statements).map Ast.unspanned =
        (Stmt.toAsts file p.statements ++ Stmt.toAsts file' q.statements).map Ast.unspanned := by
      rw [List.map_append, Stmt.unspanned_toAsts file'' "", Stmt.unspanned_toAsts file "",
        Stmt.unspanned_toAsts file' "", hstatements]
      simp [Stmt.toAsts_eq]
    refine .inl ⟨r, hr, by simpa [Stmt.bare_of_each] using hstatements, _, _, _,
      Session.lowerText_answer ha file tracing, Session.lowerText_answer hb file' tracing,
      Session.lowerText_answer hr file'' tracing, fun s t h e => ?_⟩
    exact runs_in_sequence htrees h e
  · exact .inr hdeep

/-- A variable that one text declares and sets is returned by the next one. -/
theorem declaration_then_return :
    ∃ z, (Session.lowerText "joined" false "var x = 2 // two\nreturn x").answer = .ok z ∧
      EndsWith z (.initial false) ⟨.ok (.returned 2), [], [⟨[("x", some 2)], []⟩]⟩ := by
  let p : Syntax.Program := ⟨.start, [.declaration "x" (some (.literal "2" ⟨8, 1, 9⟩)) .start]⟩
  let q : Syntax.Program := ⟨.start, [.result (.reference "x" ⟨6, 1, 7⟩) .start]⟩
  have hp : readProgram "var x = 2 // two" = .ok p := rfl
  have hq : readProgram "return x" = .ok q := rfl
  have hruns : ∃ t, RunsThrough (p.toAst "first") (.initial false) t ∧
      EndsWith (q.toAst "second") t ⟨.ok (.returned 2), [], [⟨[("x", some 2)], []⟩]⟩ :=
    ⟨_, ⟨5, .nothing, rfl, by simp⟩, ⟨5, rfl⟩⟩
  obtain ⟨t, hthrough, hends⟩ := hruns
  have hfirst : (tokensOf "return x").head? = some (.keyword .result) := rfl
  have hcomment : ¬ EndsInOpenComment "var x = 2 // two".toList := fun h => by
    have hlast := h.last
    revert hlast
    decide
  rcases texts_run_piecewise hp hq (.inr (by simp [hfirst])) hcomment "first" "second" "joined"
    false with ⟨_, _, _, x, y, z, hx, hy, hz, hall⟩ | ⟨hdeep, -⟩
  · obtain rfl := Except.ok.inj (hx.symm.trans (Session.lowerText_answer hp "first" false))
    obtain rfl := Except.ok.inj (hy.symm.trans (Session.lowerText_answer hq "second" false))
    exact ⟨z, hz, (hall _ _ hthrough _).mp hends⟩
  · exact absurd hdeep (by decide)

end Bronti
