import Bronti.Eval
import Bronti.Proofs.Frames

/-!
A static discipline of kinds: which kind of value an expression gives, read off its form alone, and
which trees use every expression as its kind allows.
-/
namespace Bronti

/-- The kind of what an operator gives. -/
def Operator.resultKind (o : Operator) : ValueKind :=
  match o.meaning with
  | .arithmetic _ => .integer
  | _ => .boolean

namespace Ast

/-- The kind of value that an expression gives, if its form shows that it gives one. The function
that is built in gives nothing. -/
def staticKind : Ast → Option ValueKind
  | literal _ _ | reference _ _ => some .integer
  | operation _ op _ _ => (Operator.ofSymbol? op).map Operator.resultKind
  | call name _ _ => if name = builtinName then none else some .integer
  | parens inner _ => inner.staticKind
  | _ => none

/-- Operands, initializers, assigned and returned expressions, arguments and conditions have the
kinds that are asked for there. So a call of the function that is built in stands nowhere but,
perhaps in parentheses, in a statement of its own. -/
inductive WellKinded : Ast → Prop
  | program {children : List Ast} {span : Option Span} (h : ∀ a ∈ children, WellKinded a) :
      WellKinded (.program children span)
  | block {statements : List Ast} {span : Option Span} (h : ∀ a ∈ statements, WellKinded a) :
      WellKinded (.block statements span)
  | braced {children : List Ast} {span : Option Span} (h : ∀ a ∈ children, WellKinded a) :
      WellKinded (.braced children span)
  | function {name : String} {params : List String} {body : Ast} {span : Option Span}
      (h : WellKinded body) : WellKinded (.function name params body span)
  | declaration {name : String} {initializer : Option Ast} {span : Option Span}
      (h : ∀ e ∈ initializer, WellKinded e)
      (kind : ∀ e ∈ initializer, e.staticKind = some .integer) :
      WellKinded (.declaration name initializer span)
  | assignment {name : String} {value : Ast} {span : Option Span} (h : WellKinded value)
      (kind : value.staticKind = some .integer) : WellKinded (.assignment name value span)
  | branch {condition : Ast} {positive negative : Option Ast} {span : Option Span}
      (h : WellKinded condition) (kind : condition.staticKind = some .boolean)
      (hp : ∀ a ∈ positive, WellKinded a) (hn : ∀ a ∈ negative, WellKinded a) :
      WellKinded (.branch condition positive negative span)
  | loop {condition body : Ast} {span : Option Span} (h : WellKinded condition)
      (kind : condition.staticKind = some .boolean) (hb : WellKinded body) :
      WellKinded (.loop condition body span)
  | result {value : Ast} {span : Option Span} (h : WellKinded value)
      (kind : value.staticKind = some .integer) : WellKinded (.result value span)
  | statement {value : Ast} {span : Option Span} (h : WellKinded value) :
      WellKinded (.statement value span)
  | operation {left right : Ast} {op : String} {span : Option Span} (hl : WellKinded left)
      (hr : WellKinded right)
      (kinds : ∀ o, Operator.ofSymbol? op = some o →
        left.staticKind = some o.operandKind ∧ right.staticKind = some o.operandKind) :
      WellKinded (.operation left op right span)
  | parens {inner : Ast} {span : Option Span} (h : WellKinded inner) :
      WellKinded (.parens inner span)
  | literal {text : String} {span : Option Span} : WellKinded (.literal text span)
  | reference {name : String} {span : Option Span} : WellKinded (.reference name span)
  | call {name : String} {args : List Ast} {span : Option Span} (h : ∀ a ∈ args, WellKinded a)
      (kinds : ∀ a ∈ args, a.staticKind = some .integer) : WellKinded (.call name args span)
  | broken {kind : String} {flaw : Flaw} {span : Option Span} : WellKinded (.broken kind flaw span)
  | hole {flaw : Flaw} : WellKinded (.hole flaw)

theorem WellKinded.children {a : Ast} (h : a.WellKinded) : ∀ b ∈ a.children, b.WellKinded := by
  cases h with
  | program h | block h | braced h => exact h
  | function h | statement h | parens h | assignment h _ | result h _ =>
    simpa [Ast.children] using h
  | declaration h _ => simpa [Ast.children] using h
  | branch h _ hp hn =>
    simp only [Ast.children, List.mem_cons, List.mem_append, Option.mem_toList]
    rintro b (rfl | hb | hb)
    · exact h
    · exact hp b hb
    · exact hn b hb
  | loop h _ hb => simpa [Ast.children] using ⟨h, hb⟩
  | operation hl hr _ => simpa [Ast.children] using ⟨hl, hr⟩
  | call h _ => exact h
  | literal | reference | broken | hole => simp [Ast.children]

end Ast

/-- The kind of value that a result is, if it is one. -/
def Result.valueKind? : Result → Option ValueKind
  | .int _ => some .integer
  | .bool _ => some .boolean
  | _ => none

/-- Every function that is declared in a state has a body of well-kinded expressions. -/
def State.WellKinded (s : State) : Prop :=
  ∀ f ∈ s.frames, ∀ p ∈ f.funs, p.2.body.WellKinded

namespace State

variable {s t : State}

theorem WellKinded.initial (tracing : Bool) : (State.initial tracing).WellKinded :=
  EveryFunction.initial (P := fun k => k.body.WellKinded) tracing

theorem WellKinded.of_kept (hs : s.WellKinded) (h : s.Kept t) : t.WellKinded :=
  EveryFunction.of_kept (P := fun k => k.body.WellKinded) hs h

theorem WellKinded.function (hs : s.WellKinded) {x : String} {k : Function}
    (h : s.frames.function? x = some k) : k.body.WellKinded :=
  EveryFunction.function (P := fun k => k.body.WellKinded) hs h

theorem WellKinded.opened (hs : s.WellKinded) : s.opened.WellKinded :=
  EveryFunction.opened (P := fun k => k.body.WellKinded) hs

theorem WellKinded.close (hs : s.WellKinded) (h : s.close? = some t) : t.WellKinded :=
  EveryFunction.close (P := fun k => k.body.WellKinded) hs h

theorem WellKinded.declare {x : String} (hs : s.WellKinded) (h : s.declare? x = some t) :
    t.WellKinded :=
  EveryFunction.declare (P := fun k => k.body.WellKinded) hs h

theorem WellKinded.declareFunction {x : String} {g : Function} (hs : s.WellKinded)
    (hg : g.body.WellKinded) (h : s.declareFunction? x g = some t) : t.WellKinded :=
  EveryFunction.declareFunction (P := fun k => k.body.WellKinded) hs hg h

end State

end Bronti
