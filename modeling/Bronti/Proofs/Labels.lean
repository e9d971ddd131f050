import Bronti.Proofs.Decimal
import Bronti.Proofs.Mirroring
import Bronti.Proofs.Separators
import Bronti.Proofs.Strictness
import Mathlib

/-!
Labels of parsed trees. A node that a text is read as has a kind in capitals, a value of names, digits
and operators, and a place, and from its label all of these can be read back.
-/
namespace Bronti

/-! ## Quoted names -/

/-- A character that stands for itself between quotes and separates nothing in a label. -/
def IsPlainChar (c : Char) : Prop :=
  32 < c.toNat ∧ c.toNat < 127 ∧ c ∉ ['\'', '\\', ',', ']']

instance (c : Char) : Decidable (IsPlainChar c) :=
  inferInstanceAs (Decidable (32 < c.toNat ∧ c.toNat < 127 ∧ c ∉ ['\'', '\\', ',', ']']))

/-- The texts of names, literals and operators. -/
def IsPlain (s : String) : Prop := ∀ c ∈ s.toList, IsPlainChar c

theorem IsPlainChar.ne {c d : Char} (h : IsPlainChar c) (hd : ¬ IsPlainChar d) : d ≠ c := by
  rintro rfl
  exact hd h

theorem IsPlain.not_mem {s : String} (h : IsPlain s) {c : Char} (hc : ¬ IsPlainChar c) :
    c ∉ s.toList := fun hmem => hc (h c hmem)

/-- A character by the range of its code. -/
theorem isPlainChar_of_range {c : Char} {lo hi : Nat} (hlo : lo ≤ c.toNat) (hhi : c.toNat ≤ hi)
    (hrange : 32 < lo ∧ hi < 127) (hfree : ∀ d ∈ ['\'', '\\', ',', ']'], d.toNat < lo ∨ hi < d.toNat) :
    IsPlainChar c := by
  refine ⟨by omega, by omega, fun hmem => ?_⟩
  have := hfree c hmem
  omega

theorem toNat_le {c d : Char} (h : c ≤ d) : c.toNat ≤ d.toNat := h

theorem isPlainChar_of_isDigit {c : Char} (h : Text.isDigit c = true) : IsPlainChar c := by
  simp only [Text.isDigit, Bool.and_eq_true, decide_eq_true_eq] at h
  exact isPlainChar_of_range (toNat_le h.1) (toNat_le h.2) (by simp) (by simp)

theorem isPlainChar_of_isNameChar {c : Char} (h : Text.isNameChar c = true) : IsPlainChar c := by
  simp only [Text.isNameChar, Text.isNameStart, Text.isLetter, Bool.or_eq_true, Bool.and_eq_true,
    decide_eq_true_eq, beq_iff_eq] at h
  rcases h with ((h | h) | rfl) | h
  · exact isPlainChar_of_range (toNat_le h.1) (toNat_le h.2) (by simp) (by simp)
  · exact isPlainChar_of_range (toNat_le h.1) (toNat_le h.2) (by simp) (by simp)
  · decide
  · exact isPlainChar_of_isDigit h

theorem Syntax.IsName.plain {s : String} (h : Syntax.IsName s) : IsPlain s := fun c hc =>
  isPlainChar_of_isNameChar (h.chars c hc)

theorem Syntax.IsLiteral.plain {s : String} (h : Syntax.IsLiteral s) : IsPlain s := fun c hc =>
  isPlainChar_of_isDigit (h.digits c hc)

theorem Operator.plain_symbol (o : Operator) : IsPlain o.symbol := by
  cases o <;> simp [IsPlain, IsPlainChar, symbol]

/-- A text between single quotes. -/
def inQuotes (s : String) : List Char := '\'' :: (s.toList ++ ['\''])

theorem inQuotes_injective : Function.Injective inQuotes := by
  intro x y h
  simpa [inQuotes, String.toList_inj] using h

/-- A plain text stands as it is between single quotes. -/
theorem quote_plain {s : String} (h : IsPlain s) : (Text.quote s).toList = inQuotes s := by
  have hmark : Text.quoteMark s.toList = '\'' := by
    rw [Text.quoteMark, if_neg]
    rintro ⟨hmem, -⟩
    exact h.not_mem (by decide) hmem
  have hescape : ∀ c ∈ s.toList, Text.escape '\'' c = [c] := by
    intro c hc
    obtain ⟨hlo, hhi, hfree⟩ := h c hc
    have hprintable : Text.isPrintable c = true := by
      have hascii : (0x20, 0x7E) ∈ Text.CharTable.printable := List.mem_cons_self
      refine List.any_eq_true.mpr ⟨_, hascii, ?_⟩
      simp only [Bool.and_eq_true, decide_eq_true_eq]
      omega
    have hne : ∀ d, ¬ IsPlainChar d → c ≠ d := fun d hd => ((h c hc).ne hd).symm
    rw [Text.escape, if_neg, if_neg (hne _ (by decide)), if_neg (hne _ (by decide)),
      if_neg (hne _ (by decide)), if_pos hprintable]
    rintro (heq | heq)
    · exact hne _ (by decide) heq
    · exact hne _ (by decide) heq
  rw [Text.quote, String.toList_ofList, Text.quoteChars, hmark, List.flatMap_congr hescape]
  simp [inQuotes]

/-! ## Values -/

/-- The values of parsed nodes: none, a text, or the name and the parameters of a function. -/
inductive Datum.IsShown : Datum → Prop
  | null : IsShown .null
  | text {s : String} (plain : IsPlain s) : IsShown (.text s)
  | function {name : String} {params : List String} (plain : IsPlain name)
      (params_plain : ∀ x ∈ params, IsPlain x) :
      IsShown (.dict [("name", .text name), ("params", .list (params.map .text))])

namespace Datum

theorem quotedAll_eq (ds : List Datum) : quotedAll ds = ds.map quoted := by
  induction ds with
  | nil => rfl
  | cons d ds ih => exact congrArg (d.quoted :: ·) ih

/-- Texts between quotes, with commas between them. -/
def quotedParams (params : List String) : List Char := [',', ' '].intercalate (params.map inQuotes)

theorem quoted_texts {params : List String} (h : ∀ x ∈ params, IsPlain x) :
    (list (params.map text)).quoted.toList = '[' :: (quotedParams params ++ [']']) := by
  have hmap : params.map (fun x => (Text.quote x).toList) = params.map inQuotes :=
    List.map_congr_left fun x hx => quote_plain (h x hx)
  -- by definition, as the equations of the quoted form are slow to derive
  change ("[" ++ ", ".intercalate (quotedAll (params.map text)) ++ "]").toList = _
  rw [quotedAll_eq, String.toList_append, String.toList_append, String.toList_intercalate,
    List.map_map, List.map_map, quotedParams, ← hmap]
  rfl

theorem quoted_function {name : String} {params : List String} (h : IsPlain name)
    (hparams : ∀ x ∈ params, IsPlain x) :
    (dict [("name", text name), ("params", list (params.map text))]).quoted.toList =
      "\x7b'name': '".toList ++ (name.toList ++ '\'' :: (", 'params': [".toList ++
        (quotedParams params ++ ']' :: ['\x7d']))) := by
  have hname : (Text.quote "name").toList = "'name'".toList := by decide +kernel
  have hkey : (Text.quote "params").toList = "'params'".toList := by decide +kernel
  change ("\x7b" ++ ", ".intercalate [Text.quote "name" ++ ": " ++ Text.quote name,
    Text.quote "params" ++ ": " ++ (list (params.map text)).quoted] ++ "\x7d").toList = _
  simp only [String.toList_append, String.toList_intercalate, List.map_cons, List.map_nil,
    List.intercalate_cons_cons, List.intercalate_singleton, hname, hkey, quote_plain h,
    quoted_texts hparams]
  simp [inQuotes]

/-- Texts can be read back from between their commas. -/
theorem quotedParams_inj {xs ys : List String} (hx : ∀ x ∈ xs, IsPlain x)
    (hy : ∀ y ∈ ys, IsPlain y) (h : quotedParams xs = quotedParams ys) : xs = ys := by
  have hpieces : ∀ {zs : List String}, (∀ z ∈ zs, IsPlain z) →
      ∀ x ∈ zs.map inQuotes, x ≠ [] ∧ ',' ∉ x := by
    intro zs hz x hx
    obtain ⟨z, hmem, rfl⟩ := List.mem_map.mp hx
    simpa [inQuotes] using (hz z hmem).not_mem (by decide)
  have hmap := intercalate_inj (hpieces hx) (hpieces hy) h
  exact List.map_injective_iff.mpr inQuotes_injective hmap

theorem not_mem_quotedParams {xs : List String} (hx : ∀ x ∈ xs, IsPlain x) {c : Char}
    (hc : ¬ IsPlainChar c) (hmarks : c ∉ [',', ' ', '\'']) : c ∉ quotedParams xs := by
  intro h
  rcases mem_of_mem_intercalate h with h | ⟨x, hmem, h⟩
  · exact hmarks (List.mem_append_left ['\''] h)
  · obtain ⟨z, hz, rfl⟩ := List.mem_map.mp hmem
    have hplain := (hx z hz).not_mem hc
    simp_all [inQuotes]

end Datum

/-! ## Labels -/

/-- The value of a node in its label. -/
def valueChars : Datum → List Char
  | .null => []
  | v => '(' :: (v.quoted.toList ++ [')'])

/-- The place of a node in its label. -/
def placeChars (s : Span) : List Char :=
  "  @".toList ++ ((toString s.line).toList ++ ':' :: (toString s.column).toList)

theorem sourceLabel_eq (kind : String) (value : Datum) (children : List Datum) (s : Span) :
    (Datum.sourceLabel (.node kind value children (some s))).toList =
      kind.toList ++ (valueChars value ++ placeChars s) := by
  have hplace : s!"  @{s.line}:{s.column}".toList = placeChars s := by
    rw [String.toList_append, String.toList_append, String.toList_append, List.append_assoc,
      List.append_assoc]
    rfl
  simp only [Datum.sourceLabel, Datum.value, Datum.span?, Datum.kind?, String.toList_append, hplace]
  cases value <;> simp [valueChars]

theorem digits_free {c : Char} (hc : c.isDigit = false) (n : Nat) : c ∉ (toString n).toList := by
  intro hmem
  rw [Text.Integer.isDigit_of_mem_toString hmem] at hc
  cases hc

theorem placeChars_inj {s t : Span} (h : placeChars s = placeChars t) :
    s.line = t.line ∧ s.column = t.column := by
  obtain ⟨hline, hcolumn⟩ := append_cons_inj (digits_free (by decide) _) (digits_free (by decide) _)
    (List.append_cancel_left h)
  exact ⟨Nat.repr_inj.mp (String.toList_inj.mp hline),
    Nat.repr_inj.mp (String.toList_inj.mp hcolumn)⟩

theorem valueChars_text {x : String} (hx : IsPlain x) :
    valueChars (.text x) = "('".toList ++ (x.toList ++ '\'' :: [')']) := by
  change '(' :: ((Text.quote x).toList ++ [')']) = _
  rw [quote_plain hx]
  simp [inQuotes]

theorem valueChars_function {x : String} {xs : List String} (hx : IsPlain x)
    (hxs : ∀ y ∈ xs, IsPlain y) :
    valueChars (.dict [("name", .text x), ("params", .list (xs.map .text))]) =
      "(\x7b'name': '".toList ++ (x.toList ++ '\'' :: (", 'params': [".toList ++
        (Datum.quotedParams xs ++ ']' :: ['\x7d', ')']))) := by
  simp [valueChars, Datum.quoted_function hx hxs]

/-- The value and the place of a node can be read back from what its label says behind the kind. -/
theorem value_place_inj {v w : Datum} (hv : v.IsShown) (hw : w.IsShown) {s t : Span}
    (h : valueChars v ++ placeChars s = valueChars w ++ placeChars t) :
    v = w ∧ s.line = t.line ∧ s.column = t.column := by
  cases hv with
  | null =>
    cases hw with
    | null => exact ⟨rfl, placeChars_inj h⟩
    | text hy | function hy hys => simp [valueChars, placeChars] at h
  | @text x hx =>
    rw [valueChars_text hx] at h
    cases hw with
    | null => simp [valueChars, placeChars] at h
    | @text y hy =>
      rw [valueChars_text hy] at h
      simp only [List.append_assoc, List.cons_append] at h
      obtain ⟨htext, hrest⟩ := append_cons_inj (hx.not_mem (by decide)) (hy.not_mem (by decide))
        (List.append_cancel_left h)
      obtain rfl : x = y := String.toList_inj.mp htext
      exact ⟨rfl, placeChars_inj (List.cons.inj hrest).2⟩
    | function hy hys => simp [valueChars_function hy hys] at h
  | @function x xs hx hxs =>
    rw [valueChars_function hx hxs] at h
    cases hw with
    | null => simp [valueChars, placeChars] at h
    | text hy => simp [valueChars_text hy] at h
    | @function y ys hy hys =>
      rw [valueChars_function hy hys] at h
      simp only [List.append_assoc, List.cons_append] at h
      obtain ⟨hname, hbehind⟩ := append_cons_inj (hx.not_mem (by decide)) (hy.not_mem (by decide))
        (List.append_cancel_left h)
      obtain ⟨hparams, hrest⟩ := append_cons_inj
        (Datum.not_mem_quotedParams hxs (by decide) (by decide))
        (Datum.not_mem_quotedParams hys (by decide) (by decide)) (List.append_cancel_left hbehind)
      obtain rfl : x = y := String.toList_inj.mp hname
      obtain rfl : xs = ys := Datum.quotedParams_inj hxs hys hparams
      exact ⟨rfl, placeChars_inj (List.cons.inj (List.cons.inj hrest).2).2⟩

/-- A character of the name of a kind. -/
def isKindChar (c : Char) : Bool := c.isUpper || c == '_'

/-- The name of a kind: capitals and underscores, one at least. -/
structure IsKind (kind : String) : Prop where
  nonempty : kind.toList ≠ []
  chars : ∀ c ∈ kind.toList, isKindChar c = true

/-- The kinds of parsed nodes. -/
def parsedKinds : List String := containerKinds ++ (Datum.statementKinds ++ Lowering.expressionKinds)

theorem isKind_of_mem {kind : String} (h : kind ∈ parsedKinds) : IsKind kind := by
  have hall : ∀ k ∈ parsedKinds, k.toList ≠ [] ∧ ∀ c ∈ k.toList, isKindChar c = true := by
    simp [parsedKinds, containerKinds, Datum.statementKinds, Lowering.expressionKinds, isKindChar]
  exact ⟨(hall kind h).1, (hall kind h).2⟩

/-- Behind the kind, a label goes on with what cannot belong to it. -/
theorem kind_stops {v : Datum} (hv : v.IsShown) (s : Span) :
    ∃ c cs, valueChars v ++ placeChars s = c :: cs ∧ isKindChar c = false := by
  cases hv with
  | null => exact ⟨' ', _, rfl, by decide⟩
  | text | function => exact ⟨'(', _, rfl, by decide⟩

/-- The kind, the value and the place of a node can be read back from its label. -/
theorem label_inj {kind kind' : String} {v w : Datum} {ds es : List Datum} {s t : Span}
    (hkind : kind ∈ parsedKinds) (hkind' : kind' ∈ parsedKinds) (hv : v.IsShown) (hw : w.IsShown)
    (h : (Datum.sourceLabel (.node kind v ds (some s))).toList =
      (Datum.sourceLabel (.node kind' w es (some t))).toList) :
    kind = kind' ∧ v = w ∧ s.line = t.line ∧ s.column = t.column := by
  rw [sourceLabel_eq, sourceLabel_eq] at h
  obtain ⟨c, cs, hc, hstop⟩ := kind_stops hv s
  obtain ⟨c', cs', hc', hstop'⟩ := kind_stops hw t
  rw [hc, hc'] at h
  obtain ⟨hkinds, hrest⟩ := append_stop_inj (isKind_of_mem hkind).chars
    (isKind_of_mem hkind').chars hstop hstop' h
  rw [← hc, ← hc'] at hrest
  exact ⟨String.toList_inj.mp hkinds, value_place_inj hv hw hrest⟩

theorem newline_not_mem_label {kind : String} {v : Datum} {ds : List Datum} {s : Span}
    (hkind : kind ∈ parsedKinds) (hv : v.IsShown) :
    '\n' ∉ (Datum.sourceLabel (.node kind v ds (some s))).toList := by
  have hkindchars : '\n' ∉ kind.toList := fun hmem =>
    absurd ((isKind_of_mem hkind).chars _ hmem) (by decide)
  have hplace : '\n' ∉ placeChars s := by
    have hdigits := digits_free (c := '\n') (by decide)
    simp only [placeChars, List.mem_append, List.mem_cons, hdigits]
    decide
  have hvalue : '\n' ∉ valueChars v := by
    cases hv with
    | null => simp [valueChars]
    | text hx =>
      have hplain := hx.not_mem (c := '\n') (by decide)
      simp only [valueChars_text hx, List.mem_append, List.mem_cons, hplain]
      decide
    | function hx hxs =>
      have hplain := hx.not_mem (c := '\n') (by decide)
      have hparams := Datum.not_mem_quotedParams hxs (c := '\n') (by decide) (by decide)
      simp only [valueChars_function hx hxs, List.mem_append, List.mem_cons, hplain, hparams]
      decide
  rw [sourceLabel_eq, List.mem_append, List.mem_append]
  tauto

/-! ## Parsed trees -/

/-- Every node of the tree has a kind, a value and a place as parsed nodes have them. -/
inductive Datum.Legible : Datum → Prop
  | node {kind : String} {value : Datum} {children : List Datum} {s : Span} (named : kind ∈ parsedKinds)
      (shown : value.IsShown) (inner : ∀ d ∈ children, Legible d) :
      Legible (.node kind value children (some s))

namespace Syntax

variable (file : String)

theorem Expr.WellFormed.legible {e : Expr} (h : e.WellFormed) : (e.toDatum file).Legible := by
  induction h with
  | literal h => exact .node (by decide) (.text h.plain) (by simp)
  | reference h => exact .node (by decide) (.text h.plain) (by simp)
  | call h _ ih =>
    rw [Expr.toDatum, Expr.toData_eq]
    exact .node (by decide) (.text h.plain) (List.forall_mem_map.mpr ih)
  | parens _ ih => exact .node (by decide) .null (by simpa using ih)
  | @operation left right op _ _ _ _ ihl ihr =>
    exact .node (by decide) (.text op.plain_symbol) (by simpa using ⟨ihl, ihr⟩)

mutual

theorem Stmt.WellFormed.legible {s : Stmt} (h : s.WellFormed) : (s.toDatum file).Legible := by
  cases h with
  | @function name params body pos h hp hb =>
    exact .node (by decide) (.function h.plain fun x hx => (hp x hx).plain)
      (by simpa using hb.legible)
  | @declaration name initializer pos h he =>
    refine .node (by decide) (.text h.plain) ?_
    simpa using fun e hmem => (he e hmem).legible file
  | @loop condition body pos hc hb =>
    exact .node (by decide) .null (by simpa using ⟨hc.legible file, hb.legible⟩)
  | @branch condition positive negative pos hc hp hn =>
    cases negative with
    | none => exact .node (by decide) .null (by simpa using ⟨hc.legible file, hp.legible⟩)
    | some b =>
      exact .node (by decide) .null
        (by simpa using ⟨hc.legible file, hp.legible, (hn b rfl).legible⟩)
  | @result value pos h | @expression value pos h =>
    exact .node (by decide) .null (by simpa using h.legible file)
  | @assignment name value pos h he =>
    exact .node (by decide) (.text h.plain) (by simpa using he.legible file)

theorem Body.WellFormed.legible {b : Body} (h : b.WellFormed) : (b.toDatum file).Legible := by
  cases h with
  | @braced brace pos statements h =>
    rw [Body.toDatum, Stmt.toData_eq]
    have hblock : (Datum.node "BLOCK" .null (statements.map (Stmt.toDatum file))
        (some (.ofPosition file pos ""))).Legible :=
      .node (by decide) .null (List.forall_mem_map.mpr fun s hs => (h s hs).legible)
    exact .node (by decide) .null (List.forall_mem_singleton.mpr hblock)

end

theorem Program.WellFormed.legible {p : Program} (h : p.WellFormed) :
    (p.toDatum file).Legible := by
  rw [Program.toDatum, Stmt.toData_eq]
  have hblock : (Datum.node "BLOCK" .null (p.statements.map (Stmt.toDatum file))
      (some (.ofPosition file p.pos ""))).Legible :=
    .node (by decide) .null (List.forall_mem_map.mpr fun s hs => (h s hs).legible file)
  exact .node (by decide) .null (List.forall_mem_singleton.mpr hblock)

end Syntax

/-- What a text is read as is legible, whichever way it is read. -/
theorem Session.Read.legible {d : Datum} (h : Session.Read d) : d.Legible := by
  obtain ⟨file, text, ⟨tracing, h⟩ | h | h⟩ := h
  · obtain ⟨p, hp, rfl⟩ := Session.readProgram_answer h
    exact (Syntax.readProgram_wellFormed hp).legible file
  · obtain ⟨s, hs, rfl⟩ := Session.readStatement_answer h
    exact (Syntax.readStatement_wellFormed hs).legible file
  · obtain ⟨e, he, rfl⟩ := Session.readExpression_answer h
    exact (Syntax.readExpression_wellFormed he).legible file

end Bronti
