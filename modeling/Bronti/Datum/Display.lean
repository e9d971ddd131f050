import Bronti.Datum.Basic

/-!
Data as text: the quoted form, in which two data differ, the plain form, which shows a text as it
is, and the dump of a tree with one line for each node.
-/
namespace Bronti.Datum

/-- The span of a quoted node. -/
def quotedSpan : Option Span → String
  | none => "None"
  | some s => s.quoted

mutual

def quoted : Datum → String
  | null => "None"
  | bool b => if b then "True" else "False"
  | int n => toString n
  | text s => Text.quote s
  | list items => "[" ++ ", ".intercalate (quotedAll items) ++ "]"
  | dict entries => "\x7b" ++ ", ".intercalate (quotedEntries entries) ++ "\x7d"
  | node kind value children span =>
    "\x7b'type': " ++ Text.quote kind ++ ", 'value': " ++ value.quoted ++ ", 'children': ["
      ++ ", ".intercalate (quotedAll children) ++ "], 'span': " ++ quotedSpan span ++ "\x7d"

def quotedAll : List Datum → List String
  | [] => []
  | d :: ds => d.quoted :: quotedAll ds

/-- Each entry with both parts in quoted form. -/
def quotedEntries : List (String × Datum) → List String
  | [] => []
  | (key, d) :: rest => (Text.quote key ++ ": " ++ d.quoted) :: quotedEntries rest

end

def plain : Datum → String
  | text s => s
  | d => d.quoted

mutual

/-- A tree in one line: kind, plain value, and the children if there are any. -/
def inline : Datum → String
  | node kind value children _ =>
    let inner := if children.isEmpty then "" else ", [" ++ ", ".intercalate (inlineAll children) ++ "]"
    kind ++ "(" ++ value.plain ++ inner ++ ")"
  | null => plain null
  | bool b => plain (bool b)
  | int n => plain (int n)
  | text s => s
  | list items => plain (list items)
  | dict entries => plain (dict entries)

def inlineAll : List Datum → List String
  | [] => []
  | d :: ds => d.inline :: inlineAll ds

end

/-- Two blanks for each level above 0. -/
def indentation (depth : Int) : String := String.ofList (List.replicate (2 * depth).toNat ' ')

mutual

/-- One line for each node, children after their parent and one level deeper. -/
def dumpLines (label : Datum → String) (depth : Int) : Datum → List String
  | node kind value children span =>
    (indentation depth ++ label (node kind value children span))
      :: dumpLinesOfAll label (depth + 1) children
  | _ => []

/-- The lines of several trees in order. -/
def dumpLinesOfAll (label : Datum → String) (depth : Int) : List Datum → List String
  | [] => []
  | d :: ds => dumpLines label depth d ++ dumpLinesOfAll label depth ds

end

/-- Lines, each ended by a newline. -/
def unlines (ls : List String) : String := String.join (ls.map (· ++ "\n"))

/-- A node of a parse tree in a dump: kind, quoted value if there is one, line and column. -/
def sourceLabel (d : Datum) : String :=
  let value := match d.value with
    | null => ""
    | v => "(" ++ v.quoted ++ ")"
  let place := match d.span? with
    | none => ""
    | some s => s!"  @{s.line}:{s.column}"
  d.kind?.getD "" ++ value ++ place

/-- An entry that a dump shows: one that holds no tree of its own. -/
def isShown : Datum → Bool
  | bool _ => true
  | int _ => true
  | text _ => true
  | list _ => true
  | _ => false

/-- The shown entries of a dictionary, if there are any. -/
def shownEntries (entries : List (String × Datum)) : String :=
  let shown := entries.filter fun e => e.2.isShown
  if shown.isEmpty then "" else "(" ++ (dict shown).quoted ++ ")"

/-- A node of a lowered tree in a dump: kind, and its value or the shown entries of its value. -/
def loweredLabel (d : Datum) : String :=
  let value := match d.value with
    | bool b => "(" ++ (bool b).quoted ++ ")"
    | int n => "(" ++ (int n).quoted ++ ")"
    | text s => "(" ++ Text.quote s ++ ")"
    | dict entries => shownEntries entries
    | node kind value children _ =>
      shownEntries [("type", text kind), ("value", value), ("children", list children)]
    | _ => ""
  d.kind?.getD "" ++ value

/-- The dump of a parse tree. -/
def dump (d : Datum) (depth : Int) : String := unlines (dumpLines sourceLabel depth d)

/-- The dump of a lowered tree. -/
def dumpLowered (d : Datum) (depth : Int) : String := unlines (dumpLines loweredLabel depth d)

mutual

/-- A dump has a line for each node. -/
theorem length_dumpLines (label : Datum → String) (depth : Int) (d : Datum) :
    (dumpLines label depth d).length = d.nodes.length := by
  cases d with
  | node kind value children span =>
    simp only [dumpLines, nodes, List.length_cons, length_dumpLinesOfAll label (depth + 1) children]
  | _ => simp [dumpLines, nodes]

/-- The dump of several trees has a line for each node. -/
theorem length_dumpLinesOfAll (label : Datum → String) (depth : Int) (ds : List Datum) :
    (dumpLinesOfAll label depth ds).length = (nodesOfAll ds).length := by
  cases ds with
  | nil => rfl
  | cons d ds =>
    simp only [dumpLinesOfAll, nodesOfAll, List.length_append, length_dumpLines label depth d,
      length_dumpLinesOfAll label depth ds]

end

end Bronti.Datum
