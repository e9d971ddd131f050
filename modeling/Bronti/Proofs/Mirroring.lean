import Bronti.Proofs.Defects
import Bronti.Proofs.ParsedTrees

/-!
What lowering keeps. The record of a lowered tree has the form of the tree before, node by node, and
holds what the values there said. So a tree that a text is read as can be told from the record.
-/
namespace Bronti

namespace Datum

/-- The node at a position: the numbers of the children on the way to it. -/
def at? : Datum → List Nat → Option Datum
  | d, [] => some d
  | d, i :: path => d.children[i]?.bind (at? · path)

/-! ## References of a value -/

mutual

/-- The numbers of the children that a value refers to, in order. -/
def references : Datum → List Int
  | list items => referencesOfAll items
  | dict entries =>
    match child? (dict entries) with
    | some i => [i]
    | none => referencesOfEntries entries
  | _ => []

/-- The numbers of the children that values refer to, in order. -/
def referencesOfAll : List Datum → List Int
  | [] => []
  | d :: ds => d.references ++ referencesOfAll ds

/-- The numbers of the children that entries refer to, in order. -/
def referencesOfEntries : List (String × Datum) → List Int
  | [] => []
  | (_, d) :: rest => d.references ++ referencesOfEntries rest

end

/-- The numbers of the children that the entries of a value under some names refer to. -/
def referencesUnder (names : List String) : Datum → List Int
  | dict entries => names.flatMap fun name => ((Datum.entry? name entries).map references).getD []
  | _ => []

theorem referencesOfAll_eq (ds : List Datum) : referencesOfAll ds = ds.flatMap references := by
  induction ds with
  | nil => rfl
  | cons d ds ih => simp [referencesOfAll, ih]

/-- Texts refer to no children. -/
theorem references_texts (ss : List String) : (list (ss.map text)).references = [] := by
  simp [references, referencesOfAll_eq]

theorem references_childrenFrom (i n : Nat) :
    (list (childrenFrom i n)).references = (List.range' i n).map Int.ofNat := by
  rw [references, referencesOfAll_eq, childrenFrom, List.flatMap_map, List.map_eq_flatMap]
  rfl

/-! ## The tree that a record was made from -/

/-- The value before lowering, where a text was read, from the value in the record. -/
def sourceValue : Datum → Datum
  | dict entries =>
    match Datum.entry? "params" entries with
    | some params => dict [("name", (Datum.entry? "name" entries).getD null), ("params", params)]
    | none => ((Datum.entry? "name" entries).or (Datum.entry? "op" entries)).getD null
  | d => d

mutual

/-- The tree before lowering, where a text was read, from the record. -/
def source : Datum → Datum
  | node kind value children span => node kind value.sourceValue (sources children) span
  | d => d

/-- The trees before lowering, from the records. -/
def sources : List Datum → List Datum
  | [] => []
  | d :: ds => d.source :: sources ds

end

theorem sources_eq (ds : List Datum) : sources ds = ds.map source := by
  induction ds with
  | nil => rfl
  | cons d ds ih => simp [sources, ih]

end Datum

/-! ## What a record holds -/

/-- The kinds of nodes that hold their parts among their children alone. -/
def containerKinds : List String := ["PROGRAM", "BLOCK", "BRACED_BLOCK"]

/-- The names under which the values of a kind hold parts, in the order of the children. -/
def partNames : String → List String
  | "FUNCTION_DEF" => ["body"]
  | "VARIABLE_DECL" => ["initializer"]
  | "ASSIGNMENT" => ["expression"]
  | "IF" => ["condition", "then", "else"]
  | "WHILE" => ["condition", "body"]
  | "RETURN" => ["expression"]
  | "EXPRESSION_STATEMENT" => ["expression"]
  | "OPERATION" => ["left", "right"]
  | "PARENTHESIZED" => ["expression"]
  | "FUNCTION_CALL" => ["args"]
  | _ => []

/-- The value holds every child once and in order, under the names of the parts and nowhere else;
that of a container is null. -/
def HoldsParts (kind : String) (value : Datum) (count : Nat) : Prop :=
  kind ∈ containerKinds ∧ value = .null ∨
    value.referencesUnder (partNames kind) = (List.range count).map Int.ofNat ∧
      value.references = (List.range count).map Int.ofNat

namespace Ast

theorem records_eq (as : List Ast) : records as = as.map record := by
  induction as with
  | nil => rfl
  | cons a as ih => simp [records, ih]

theorem recordOption_eq (a : Option Ast) : recordOption a = a.toList.map record := by
  cases a <;> rfl

theorem record_eq {a : Ast} (h : a.isNode = true) :
    a.record = .node a.kind a.recordValue (a.children.map record) a.span := by
  cases a <;> simp [record, kind, recordValue, children, span, records_eq, recordOption_eq]
  cases h

theorem source_record {a : Ast} (h : a.isNode = true) :
    a.record.source = .node a.kind a.recordValue.sourceValue
      (a.children.map fun b => b.record.source) a.span := by
  rw [record_eq h, Datum.source, Datum.sources_eq, List.map_map]
  rfl

theorem recordValue_of_container {a : Ast} (h : a.kind ∈ containerKinds) :
    a.recordValue = .null := by
  cases a with
  | program | block | braced | broken | hole => rfl
  | _ => simp [kind, containerKinds] at h

theorem references_recordValue {a : Ast} (h : a.kind ∉ containerKinds) :
    a.recordValue.references = (List.range a.children.length).map Int.ofNat := by
  cases a with
  | program | block | braced => simp [kind, containerKinds] at h
  | function name params body span =>
    -- the parameters are texts, so that the body is the only part
    change [] ++ ((Datum.list (params.map .text)).references ++ [0]) = [0]
    rw [Datum.references_texts]
    rfl
  | declaration name initializer span => cases initializer <;> rfl
  | branch condition positive negative span => cases positive <;> cases negative <;> rfl
  | call name args span =>
    change [] ++ ((Datum.list (Datum.childrenFrom 0 args.length)).references ++ []) = _
    rw [Datum.references_childrenFrom, List.append_nil, List.nil_append, List.range_eq_range']
    rfl
  | _ => rfl

theorem referencesUnder_recordValue {a : Ast} (h : a.kind ∉ containerKinds) :
    a.recordValue.referencesUnder (partNames a.kind) =
      (List.range a.children.length).map Int.ofNat := by
  cases a with
  | program | block | braced => simp [kind, containerKinds] at h
  | declaration name initializer span => cases initializer <;> rfl
  | branch condition positive negative span => cases positive <;> cases negative <;> rfl
  | call name args span =>
    change (Datum.list (Datum.childrenFrom 0 args.length)).references ++ [] = _
    rw [Datum.references_childrenFrom, List.append_nil, List.range_eq_range']
    rfl
  | _ => rfl

/-- The value of a record holds the nodes inside. -/
theorem holdsParts (a : Ast) : HoldsParts a.kind a.recordValue a.children.length := by
  by_cases hkind : a.kind ∈ containerKinds
  · exact .inl ⟨hkind, recordValue_of_container hkind⟩
  · exact .inr ⟨referencesUnder_recordValue hkind, references_recordValue hkind⟩

end Ast

/-! ## The record of a lowered tree -/

/-- The kinds of nodes whose value is a name. -/
def namedKinds : List String := ["VARIABLE_DECL", "ASSIGNMENT", "FUNCTION_CALL"]

/-- The kinds of nodes whose value says nothing. -/
def silentKinds : List String :=
  containerKinds ++ ["IF", "WHILE", "RETURN", "EXPRESSION_STATEMENT", "PARENTHESIZED"]

/-- What the value of a node says is said by the value in the record: names, parameters, operators
and the texts of literals. -/
inductive Carries : String → Datum → Datum → Prop
  | function {entries entries' : List (String × Datum)} {name : Datum} {params : List Datum}
      (named : Datum.entry? "name" entries = some name)
      (named' : Datum.entry? "name" entries' = some name)
      (taken : ((Datum.entry? "params" entries).getD (.list [])).elements? = some params)
      (taken' : Datum.entry? "params" entries' = some (.list params)) :
      Carries "FUNCTION_DEF" (.dict entries) (.dict entries')
  | name {kind name : String} {entries : List (String × Datum)} (kind_mem : kind ∈ namedKinds)
      (named : Datum.entry? "name" entries = some (.text name)) :
      Carries kind (.text name) (.dict entries)
  | operator {op : String} {entries : List (String × Datum)}
      (spelled : Datum.entry? "op" entries = some (.text op)) :
      Carries "OPERATION" (.text op) (.dict entries)
  | literal {value : Datum} : Carries "LITERAL" value (.text value.plain)
  | reference {name : String} : Carries "IDENTIFIER" (.text name) (.text name)
  | silent {kind : String} {value value' : Datum} (kind_mem : kind ∈ silentKinds) :
      Carries kind value value'

/-- A node of a tree and the record that it becomes. -/
structure Mirrors (n m : Datum) : Prop where
  kind : m.kind? = n.kind?
  span : m.span? = n.span?
  count : m.children.length = n.children.length
  carries : ∃ k, n.kind? = some k ∧ Carries k n.value m.value
  parts : ∃ k, m.kind? = some k ∧ HoldsParts k m.value m.children.length

theorem getElem?_rel {α β : Type} {R : α → β → Prop} {xs : List α} {ys : List β}
    (h : List.Forall₂ R xs ys) (i : Nat) : Option.Rel R xs[i]? ys[i]? := by
  induction h generalizing i with
  | nil => exact .none
  | cons hxy _ ih =>
    cases i with
    | zero => exact .some hxy
    | succ i => exact ih i

namespace Lowers

variable {d : Datum} {a : Ast}

theorem isNode (h : Lowers d a) : a.isNode = true := by
  cases h <;> rfl

theorem span (h : Lowers d a) : d.span? = a.span := by
  cases h <;> rfl

theorem carries (h : Lowers d a) : Carries a.kind d.value a.recordValue := by
  cases h with
  | function named _ taken => exact .function named rfl taken rfl
  | declaration | initialized | assignment | call =>
    exact .name (by simp [namedKinds, Ast.kind]) rfl
  | operation => exact .operator rfl
  | literal => exact .literal
  | reference => exact .reference
  | program | block | braced | branch | alternative | loop | result | statement | parens =>
    exact .silent (by simp [silentKinds, containerKinds, Ast.kind])

theorem mirrors (h : Lowers d a) : Mirrors d a.record := by
  rw [Ast.record_eq h.isNode]
  refine ⟨h.kind.symm, h.span.symm, ?_, ⟨_, h.kind, h.carries⟩, _, rfl, ?_⟩
  · simpa [Datum.children] using h.children.length_eq.symm
  · rw [Datum.children, List.length_map]
    exact a.holdsParts

/-- The nodes at a position of a tree and of its record are those before and behind lowering, and
there is none in the one where there is none in the other. -/
theorem mirrors_at (h : Lowers d a) (path : List Nat) :
    Option.Rel Mirrors (d.at? path) (a.record.at? path) := by
  -- on the position, for all trees at once, since the way on leads through a child of each
  induction path generalizing d a with
  | nil => exact .some h.mirrors
  | cons i path ih =>
    have hchild := getElem?_rel h.children i
    rw [Ast.record_eq h.isNode]
    change Option.Rel Mirrors (d.children[i]?.bind _) ((a.children.map Ast.record)[i]?.bind _)
    rw [List.getElem?_map]
    generalize d.children[i]? = e at hchild ⊢
    generalize a.children[i]? = b at hchild ⊢
    cases hchild with
    | none => exact .none
    | some h => exact ih h

end Lowers

/-! ## Trees that texts are read as -/

namespace Syntax

section Source

variable (file : String)

theorem Expr.source_record (e : Expr) : (e.toAst file).record.source = e.toDatum file := by
  match e with
  | .literal _ _ | .reference _ _ => rfl
  | .call name args pos =>
    have hargs : (args.map fun e => (e.toAst file).record.source) = args.map (toDatum file) :=
      List.map_congr_left fun e _ => e.source_record
    rw [toAst, toDatum, Ast.source_record rfl, toAsts_eq, toData_eq, ← hargs, Ast.children,
      List.map_map]
    rfl
  | .parens inner pos =>
    rw [toAst, toDatum, ← inner.source_record]
    rfl
  | .operation left op right =>
    rw [toAst, toDatum, ← left.source_record, ← right.source_record]
    rfl

theorem Stmt.source_block {ss : List Stmt}
    (h : ∀ s ∈ ss, (s.toAst file).record.source = s.toDatum file) (span : Option Span) :
    (Ast.block (Stmt.toAsts file ss) span).record.source =
      .node "BLOCK" .null (Stmt.toData file ss) span := by
  rw [Stmt.toAsts_eq, Stmt.toData_eq, ← List.map_congr_left h, Ast.source_record rfl, Ast.children,
    List.map_map]
  rfl

mutual

theorem Stmt.source_record (s : Stmt) : (s.toAst file).record.source = s.toDatum file := by
  match s with
  | .function name params body pos =>
    rw [Stmt.toAst, Stmt.toDatum, ← body.source_record]
    rfl
  | .declaration name none pos => rfl
  | .declaration name (some e) pos =>
    rw [Stmt.toAst, Stmt.toDatum, Option.toList_some, List.map_singleton, ← e.source_record]
    rfl
  | .loop condition body pos =>
    rw [Stmt.toAst, Stmt.toDatum, ← condition.source_record, ← body.source_record]
    rfl
  | .branch condition positive none pos =>
    rw [Stmt.toAst, Stmt.toDatum, ← condition.source_record, ← positive.source_record]
    rfl
  | .branch condition positive (some negative) pos =>
    rw [Stmt.toAst, Stmt.toDatum, ← condition.source_record, ← positive.source_record,
      ← negative.source_record]
    rfl
  | .result value pos | .assignment name value pos | .expression value pos =>
    rw [Stmt.toAst, Stmt.toDatum, ← value.source_record]
    rfl

theorem Body.source_record (b : Body) : (b.toAst file).record.source = b.toDatum file := by
  match b with
  | .braced brace pos statements =>
    rw [Body.toAst, Body.toDatum, ← Stmt.source_block file fun s _ => s.source_record]
    rfl

end

theorem Program.source_record (p : Program) : (p.toAst file).record.source = p.toDatum file := by
  rw [Program.toAst, Program.toDatum, ← Stmt.source_block file fun s _ => s.source_record file]
  rfl

end Source

end Syntax

/-- The datum is what some text is read as, whole or as one statement or one expression. -/
def Session.Read (d : Datum) : Prop :=
  ∃ file text, (∃ tracing, (Session.readProgram file tracing text).answer = .ok d) ∨
    (Session.readStatement file text).answer = .ok d ∨
    (Session.readExpression file text).answer = .ok d

theorem Session.Read.lowers {d : Datum} (h : Session.Read d) :
    ∃ a, Lowers d a ∧ a.record.source = d := by
  obtain ⟨file, text, ⟨tracing, h⟩ | h | h⟩ := h
  · obtain ⟨p, hp, rfl⟩ := Session.readProgram_answer h
    exact ⟨_, (Syntax.readProgram_wellFormed hp).lowers file, p.source_record file⟩
  · obtain ⟨s, hs, rfl⟩ := Session.readStatement_answer h
    exact ⟨_, (Syntax.readStatement_wellFormed hs).lowers file, s.source_record file⟩
  · obtain ⟨e, he, rfl⟩ := Session.readExpression_answer h
    exact ⟨_, (Syntax.readExpression_wellFormed he).lowers file, e.source_record file⟩

theorem Lowers.unique {d : Datum} {a b : Ast} (ha : Lowers d a) (hb : Lowers d b) : a = b := by
  have hanswer := Session.lower_node ha false
  rw [Session.lower_node hb false] at hanswer
  exact (Except.ok.inj hanswer).symm

/-- The record of a tree that a text is read as gives back the tree. -/
theorem Session.Read.source {d : Datum} {a : Ast} (h : Session.Read d) (ha : Lowers d a) :
    a.record.source = d := by
  obtain ⟨b, hb, hsource⟩ := h.lowers
  rw [ha.unique hb, hsource]

/-- The record of a lowered tree mirrors the tree at every position: it has nodes of the same kind,
with the same span and as many children, its values say what the values there said, and refer to the
children in order. Trees that texts are read as are equal if their records are. -/
theorem lowering_mirrors {whole tracing : Bool} {d : Datum} {a : Ast}
    (h : (Session.lower whole tracing d).answer = .ok a) :
    (∀ path, Option.Rel Mirrors (d.at? path) (a.record.at? path)) ∧
      ∀ whole' tracing' e b, (Session.lower whole' tracing' e).answer = .ok b →
        Session.Read d → Session.Read e → a.record = b.record → d = e := by
  obtain ⟨hlowers, -⟩ := Session.lowers_of_answer h
  refine ⟨hlowers.mirrors_at, fun whole' tracing' e b hb hd he hrecord => ?_⟩
  obtain ⟨hlowers', -⟩ := Session.lowers_of_answer hb
  calc
    d = a.record.source := (hd.source hlowers).symm
    _ = b.record.source := by rw [hrecord]
    _ = e := he.source hlowers'

/-- The argument of a returned call, and a name that is read with and without a comment. -/
theorem returned_call_mirrored :
    (∃ a, (Session.lower false false (.node "RETURN" .null [.node "FUNCTION_CALL" (.text "f")
        [.node "IDENTIFIER" (.text "x") [] none] none] none)).answer = .ok a ∧
      ∃ m, a.record.at? [0, 0] = some m ∧ Mirrors (.node "IDENTIFIER" (.text "x") [] none) m) ∧
    ∃ d e, (Session.readExpression "source" "x").answer = .ok d ∧
      (Session.readExpression "source" "x//").answer = .ok e ∧ d = e := by
  constructor
  · have haccepted : ∃ a, (Session.lower false false (.node "RETURN" .null [.node "FUNCTION_CALL"
        (.text "f") [.node "IDENTIFIER" (.text "x") [] none] none] none)).answer = .ok a := ⟨_, rfl⟩
    obtain ⟨a, ha⟩ := haccepted
    obtain ⟨hmirrors, -⟩ := lowering_mirrors ha
    refine ⟨a, ha, ?_⟩
    have hat := hmirrors [0, 0]
    generalize a.record.at? [0, 0] = m at hat ⊢
    cases hat with
    | some h => exact ⟨_, rfl, h⟩
  · have hreads : ∃ d e a b, (Session.readExpression "source" "x").answer = .ok d ∧
        (Session.readExpression "source" "x//").answer = .ok e ∧
        (Session.lower false false d).answer = .ok a ∧
        (Session.lower false false e).answer = .ok b ∧ a.record = b.record :=
      ⟨_, _, _, _, rfl, rfl, rfl, rfl, rfl⟩
    obtain ⟨d, e, a, b, hd, he, ha, hb, hrecord⟩ := hreads
    obtain ⟨-, hequal⟩ := lowering_mirrors ha
    refine ⟨d, e, hd, he, ?_⟩
    exact hequal false false e b hb ⟨_, _, .inr (.inr hd)⟩ ⟨_, _, .inr (.inr he)⟩ hrecord

end Bronti
