import Bronti.Proofs.Labels

/-!
Dumps of parsed trees. The dump of a tree has a line for each node, the children of a node below it and
further to the right. So the tree can be read back from the dump, as long as the line of each node but
the root shows how far to the right it is.
-/
namespace Bronti

namespace Datum

mutual

/-- The nodes of a tree, each before its children, with their levels; the root is at the level that is
given. -/
def leveled (level : Int) : Datum → List (Int × Datum)
  | node kind value children span =>
    (level, node kind value children span) :: leveledOfAll (level + 1) children
  | _ => []

/-- The nodes of several trees at one level, in order. -/
def leveledOfAll (level : Int) : List Datum → List (Int × Datum)
  | [] => []
  | d :: ds => leveled level d ++ leveledOfAll level ds

end

/-- The line of a node in a dump: two blanks for each level above 0, and the label. -/
def dumpLine (p : Int × Datum) : List Char :=
  List.replicate (2 * p.1).toNat ' ' ++ p.2.sourceLabel.toList

/-- The trees have the same shape, and at every position the same kind, value, line and column. -/
inductive Coincides : Datum → Datum → Prop
  | node {kind : String} {value : Datum} {ds es : List Datum} {s t : Span} (line : s.line = t.line)
      (column : s.column = t.column) (children : List.Forall₂ Coincides ds es) :
      Coincides (.node kind value ds (some s)) (.node kind value es (some t))

/-! ## Lines -/

mutual

theorem nodes_leveled (level : Int) (d : Datum) : (d.leveled level).map Prod.snd = d.nodes := by
  cases d with
  | node kind value children span =>
    rw [leveled, nodes, List.map_cons, nodesOfAll_leveled]
  | _ => rfl

theorem nodesOfAll_leveled (level : Int) (ds : List Datum) :
    (leveledOfAll level ds).map Prod.snd = nodesOfAll ds := by
  cases ds with
  | nil => rfl
  | cons d ds =>
    rw [leveledOfAll, nodesOfAll, List.map_append, nodes_leveled, nodesOfAll_leveled]

end

mutual

theorem dumpLines_leveled (level : Int) (d : Datum) :
    (dumpLines sourceLabel level d).map String.toList = (d.leveled level).map dumpLine := by
  cases d with
  | node kind value children span =>
    rw [dumpLines, leveled, List.map_cons, List.map_cons, dumpLinesOfAll_leveled, String.toList_append,
      indentation, String.toList_ofList]
    rfl
  | _ => rfl

theorem dumpLinesOfAll_leveled (level : Int) (ds : List Datum) :
    (dumpLinesOfAll sourceLabel level ds).map String.toList =
      (leveledOfAll level ds).map dumpLine := by
  cases ds with
  | nil => rfl
  | cons d ds =>
    rw [dumpLinesOfAll, leveledOfAll, List.map_append, List.map_append, dumpLines_leveled,
      dumpLinesOfAll_leveled]

end

theorem toList_dump (d : Datum) (level : Int) :
    (d.dump level).toList = ((d.leveled level).map dumpLine).flatMap (· ++ ['\n']) := by
  rw [← dumpLines_leveled, dump, unlines, String.toList_join, List.flatMap_map, List.flatMap_map]
  simp only [String.toList_append]
  rfl

theorem Legible.nodes {d : Datum} (h : d.Legible) : ∀ n ∈ d.nodes, n.Legible := by
  induction h with
  | node named shown inner ih =>
    intro n hn
    rcases mem_nodes.mp hn with rfl | ⟨e, he, hn⟩
    · exact .node named shown inner
    · exact ih e he n hn

/-- No line of a legible tree is broken by a newline. -/
theorem newline_not_mem_lines {level : Int} {d : Datum} (h : d.Legible) :
    ∀ x ∈ (d.leveled level).map dumpLine, '\n' ∉ x := by
  rw [List.forall_mem_map]
  rintro ⟨n, e⟩ hmem
  have hnode : e ∈ d.nodes := by
    rw [← nodes_leveled level]
    exact List.mem_map_of_mem hmem
  cases h.nodes e hnode with
  | node named shown inner => simp [dumpLine, newline_not_mem_label named shown]

/-! ## Reading back -/

/-- How far a line is to the right can be told from it, and so can the kind, the value and the place of
the node. -/
theorem dumpLine_inj {m n : Int} {kind kind' : String} {v w : Datum} {ds es : List Datum}
    {s t : Span} (hkind : kind ∈ parsedKinds) (hkind' : kind' ∈ parsedKinds) (hv : v.IsShown)
    (hw : w.IsShown)
    (h : dumpLine (m, .node kind v ds (some s)) = dumpLine (n, .node kind' w es (some t))) :
    (2 * m).toNat = (2 * n).toNat ∧ kind = kind' ∧ v = w ∧ s.line = t.line ∧
      s.column = t.column := by
  -- a label begins with its kind, and no kind begins with a blank
  have hstarts : ∀ {k : String} (x : Datum) (cs : List Datum) (u : Span), k ∈ parsedKinds →
      ∃ c rest, (sourceLabel (.node k x cs (some u))).toList = c :: rest ∧ (c == ' ') = false := by
    intro k x cs u hk
    obtain ⟨c, rest, hc⟩ := List.exists_cons_of_ne_nil (isKind_of_mem hk).nonempty
    have hchar : isKindChar c = true := (isKind_of_mem hk).chars c (by simp [hc])
    refine ⟨c, _, by rw [sourceLabel_eq, hc, List.cons_append], ?_⟩
    rw [beq_eq_false_iff_ne]
    rintro rfl
    exact absurd hchar (by decide)
  obtain ⟨c, cs, hc, hblank⟩ := hstarts v ds s hkind
  obtain ⟨c', cs', hc', hblank'⟩ := hstarts w es t hkind'
  have hreplicate : ∀ k : Nat, ∀ c ∈ List.replicate k ' ', (c == ' ') = true := by simp
  simp only [dumpLine, hc, hc'] at h
  obtain ⟨hblanks, hlabels⟩ := append_stop_inj (hreplicate _) (hreplicate _) hblank hblank' h
  rw [← hc, ← hc'] at hlabels
  exact ⟨by simpa using congrArg List.length hblanks, label_inj hkind hkind' hv hw hlabels⟩

/-- What follows the trees of a level: nothing, or a legible node that is further to the left. -/
def Below (level : Int) (rest : List (Int × Datum)) : Prop :=
  ∀ p ∈ rest.head?, 0 ≤ p.1 ∧ p.1 < level ∧ p.2.Legible

theorem leveledOfAll_cons {d : Datum} (h : d.Legible) (level : Int) (ds : List Datum) :
    leveledOfAll level (d :: ds) =
      (level, d) :: (leveledOfAll (level + 1) d.children ++ leveledOfAll level ds) := by
  cases h
  rfl

/-- The trees of a level and what follows them follow the children of a tree of the level. -/
theorem Below.children {level : Int} {rest : List (Int × Datum)} (h : Below level rest)
    (hlevel : 0 ≤ level) {ds : List Datum} (hd : ∀ d ∈ ds, d.Legible) :
    Below (level + 1) (leveledOfAll level ds ++ rest) := by
  intro p hp
  cases ds with
  | nil =>
    obtain ⟨hlo, hhi, hlegible⟩ := h p hp
    exact ⟨hlo, by omega, hlegible⟩
  | cons d ds =>
    rw [leveledOfAll_cons (hd d (by simp))] at hp
    obtain rfl : (level, d) = p := by simpa using hp
    exact ⟨hlevel, by omega, hd d (by simp)⟩

/-- What follows the trees of a level does not begin like one of them. -/
theorem Below.ne {level : Int} {rest more : List (Int × Datum)} (h : Below level rest)
    {d : Datum} (hd : d.Legible) :
    rest.map dumpLine ≠ ((level, d) :: more).map dumpLine := by
  cases rest with
  | nil => simp
  | cons p rest =>
    intro hlines
    obtain ⟨hlo, hhi, hlegible⟩ := h p rfl
    obtain ⟨n, e⟩ := p
    cases hlegible with
    | node named shown inner =>
      cases hd with
      | node named' shown' inner' =>
        have hline := (List.cons.inj hlines).1
        have hlevels := (dumpLine_inj named named' shown shown' hline).1
        dsimp only at hlo hhi
        omega

/-- The trees of a level can be read back from their lines and what follows them. -/
theorem forest_coincides {level : Int} (hlevel : 0 ≤ level) {ds es : List Datum}
    (hd : ∀ d ∈ ds, d.Legible) (he : ∀ e ∈ es, e.Legible) {rest rest' : List (Int × Datum)}
    (hrest : Below level rest) (hrest' : Below level rest')
    (h : (leveledOfAll level ds ++ rest).map dumpLine =
      (leveledOfAll level es ++ rest').map dumpLine) :
    List.Forall₂ Coincides ds es ∧ rest.map dumpLine = rest'.map dumpLine := by
  match ds, es with
  | [], [] => exact ⟨.nil, h⟩
  | [], e :: es =>
    have hfirst : e.Legible := he e (by simp)
    rw [leveledOfAll_cons hfirst] at h
    exact absurd h (hrest.ne hfirst)
  | d :: ds, [] =>
    have hfirst : d.Legible := hd d (by simp)
    rw [leveledOfAll_cons hfirst] at h
    exact absurd h.symm (hrest'.ne hfirst)
  | d :: ds, e :: es =>
    obtain ⟨hfirst, hds⟩ := List.forall_mem_cons.mp hd
    obtain ⟨hfirst', hes⟩ := List.forall_mem_cons.mp he
    rw [leveledOfAll_cons hfirst, leveledOfAll_cons hfirst', List.cons_append, List.cons_append,
      List.append_assoc, List.append_assoc] at h
    cases hfirst with
    | @node kind value children s named shown inner =>
      cases hfirst' with
      | @node kind' value' children' t named' shown' inner' =>
        obtain ⟨hline, hlines⟩ := List.cons.inj h
        obtain ⟨-, rfl, rfl, hs, hcolumn⟩ := dumpLine_inj named named' shown shown' hline
        -- first the children, which are further to the right than what follows, then the siblings
        obtain ⟨hchildren, hlines⟩ := forest_coincides (by omega) inner inner'
          (hrest.children hlevel hds) (hrest'.children hlevel hes) hlines
        obtain ⟨hsiblings, hrests⟩ := forest_coincides hlevel hds hes hrest hrest' hlines
        exact ⟨.cons (.node hs hcolumn hchildren) hsiblings, hrests⟩
termination_by sizeOf ds

/-- A legible tree can be read back from its dump, where its root may be one level too far to the left
for its line to show it. -/
theorem Legible.coincides {level : Int} (hlevel : -1 ≤ level) {d e : Datum} (hd : d.Legible)
    (he : e.Legible) (h : d.dump level = e.dump level) : d.Coincides e := by
  have htext := congrArg String.toList h
  rw [toList_dump, toList_dump] at htext
  have hlines := terminated_inj (newline_not_mem_lines hd) (newline_not_mem_lines he) htext
  cases hd with
  | @node kind value children s named shown inner =>
    cases he with
    | @node kind' value' children' t named' shown' inner' =>
      obtain ⟨hline, hbelow⟩ := List.cons.inj hlines
      obtain ⟨-, rfl, rfl, hs, hcolumn⟩ := dumpLine_inj named named' shown shown' hline
      have hnone : Below (level + 1) [] := fun p hp => nomatch hp
      have hchildren := forest_coincides (by omega) inner inner' hnone hnone (by simpa using hbelow)
      exact .node hs hcolumn hchildren.1

end Datum

/-- A parsed tree can be read back from its dump, whatever the level of its root but those from -2
downward: trees with the same dump at the same level have the same shape and at every position the same
kind, value, line and column. At any level a dump has exactly one line for each node, each node before
its children, and begins the line with two blanks for each level above 0. -/
theorem dump_determines :
    (∀ d e level, Session.Read d → Session.Read e → -1 ≤ level → d.dump level = e.dump level →
      d.Coincides e) ∧
    ∀ d level, Session.Read d →
      (d.dump level).toList.splitOn '\n' = (d.leveled level).map Datum.dumpLine ++ [[]] ∧
        (d.leveled level).map Prod.snd = d.nodes := by
  refine ⟨fun d e level hd he hlevel h => hd.legible.coincides hlevel he.legible h,
    fun d level hd => ⟨?_, Datum.nodes_leveled level d⟩⟩
  rw [Datum.toList_dump, splitOn_terminated (Datum.newline_not_mem_lines hd.legible)]

/-- A call as the argument of a call, with an argument of its own: `f(g(  a))`. -/
def nestedCall : Datum :=
  .node "FUNCTION_CALL" (.text "f")
    [.node "FUNCTION_CALL" (.text "g")
      [.node "IDENTIFIER" (.text "a") [] (some ⟨"source", 1, 7, "a"⟩)] (some ⟨"source", 1, 3, "g"⟩)]
    (some ⟨"source", 1, 1, "f"⟩)

/-- The same argument behind the inner call: `f(g(),a)`. -/
def argumentBehind : Datum :=
  .node "FUNCTION_CALL" (.text "f")
    [.node "FUNCTION_CALL" (.text "g") [] (some ⟨"source", 1, 3, "g"⟩),
      .node "IDENTIFIER" (.text "a") [] (some ⟨"source", 1, 7, "a"⟩)]
    (some ⟨"source", 1, 1, "f"⟩)

/-- The nested call, read from two texts. -/
theorem nested_call_determined :
    (Session.readExpression "source" "f(g(  a))").answer = .ok nestedCall ∧
      (Session.readExpression "source" "f(g(  a))//").answer = .ok nestedCall ∧
      -1 ≤ (0 : Int) ∧ nestedCall.Coincides nestedCall ∧
      (nestedCall.dump 0).toList.splitOn '\n' =
        (nestedCall.leveled 0).map Datum.dumpLine ++ [[]] := by
  have hanswer : (Session.readExpression "source" "f(g(  a))").answer = .ok nestedCall := rfl
  have hcommented : (Session.readExpression "source" "f(g(  a))//").answer = .ok nestedCall := rfl
  have hread : Session.Read nestedCall := ⟨_, _, .inr (.inr hanswer)⟩
  have hread' : Session.Read nestedCall := ⟨_, _, .inr (.inr hcommented)⟩
  have hlevel : -1 ≤ (0 : Int) := by decide
  exact ⟨hanswer, hcommented, hlevel,
    dump_determines.1 nestedCall nestedCall 0 hread hread' hlevel rfl,
    (dump_determines.2 nestedCall 0 hread).1⟩

/-- From level -2 downward neither the line of the root nor those of its children begin with blanks, nor
do those of their children at level -2, so that an argument of the inner call looks like one of the outer
call. -/
theorem nested_call_dumped_alike :
    Session.Read nestedCall ∧ Session.Read argumentBehind ∧
      nestedCall.dump (-2) = argumentBehind.dump (-2) ∧ ¬ nestedCall.Coincides argumentBehind := by
  have hnested : (Session.readExpression "source" "f(g(  a))").answer = .ok nestedCall := rfl
  have hbehind : (Session.readExpression "source" "f(g(),a)").answer = .ok argumentBehind := rfl
  refine ⟨⟨_, _, .inr (.inr hnested)⟩, ⟨_, _, .inr (.inr hbehind)⟩, rfl, fun h => ?_⟩
  cases h with
  | node _ _ children =>
    cases children with
    | cons _ rest => cases rest

end Bronti
