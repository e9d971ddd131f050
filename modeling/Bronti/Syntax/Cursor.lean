import Bronti.Syntax.Lexeme

/-!
Reading along the lexemes of a text. A reader stands behind a token; the gap before the next token
counts as read once something optional was looked for there in vain. A reading fails at a place,
where it may then be taken back, or it exceeds the depth to which the language may be nested, which
is final.
-/
namespace Bronti.Syntax

open Text (Position)

/-- Where a reader stands: the lexemes before it, the gap behind the last of them, whether a
character that begins no token follows that gap, and whether the next gap is read. -/
structure Cursor where
  lexemes : List Lexeme
  final : Gap
  stray : Bool
  gapRead : Bool
deriving DecidableEq, Repr

namespace Cursor

def ofText (text : List Char) : Cursor :=
  let ls := Lexemes.ofText text
  ⟨ls.all, ls.gap, !ls.unread.isEmpty, false⟩

def token? (c : Cursor) : Option Token := c.lexemes.head?.map Lexeme.token

/-- The gap before the next token. -/
def gap (c : Cursor) : Gap := (c.lexemes.head?.map Lexeme.gap).getD c.final

/-- The place of the next token. -/
def start (c : Cursor) : Position := c.gap.start

/-- The place of the reader: behind the comments of the gap, or behind the gap once it is read. -/
def here (c : Cursor) : Position := if c.gapRead then c.gap.start else c.gap.before

def readGap (c : Cursor) : Cursor := { c with gapRead := true }

def skip (c : Cursor) : Cursor := { c with lexemes := c.lexemes.tail, gapRead := false }

@[simp] theorem lexemes_readGap (c : Cursor) : c.readGap.lexemes = c.lexemes := rfl

@[simp] theorem lexemes_skip (c : Cursor) : c.skip.lexemes = c.lexemes.tail := rfl

end Cursor

/-- What is missing where a reading fails. -/
inductive Missing
  | mark (m : Mark)
  | endOfText
  | construct
deriving DecidableEq, Repr

/-- A failed reading: what is missing and where. -/
structure Failure where
  missing : Missing
  pos : Position
deriving DecidableEq, Repr

/-- What a reading comes to. -/
inductive Parsed (α : Type)
  | ok (a : α) (c : Cursor)
  | failed (f : Failure)
  | tooDeep
deriving Repr

/-- A reading from a cursor on. -/
def Parse (α : Type) : Type := Cursor → Parsed α

namespace Parse

@[inline] protected def pure {α : Type} (a : α) : Parse α := fun c => .ok a c

@[inline] protected def bind {α β : Type} (p : Parse α) (f : α → Parse β) : Parse β := fun c =>
  match p c with
  | .ok a c' => f a c'
  | .failed e => .failed e
  | .tooDeep => .tooDeep

instance : Monad Parse where
  pure := Parse.pure
  bind := Parse.bind

/-- The place of the next token. -/
def start : Parse Position := fun c => .ok c.start c

def here : Parse Position := fun c => .ok c.here c

def readGap : Parse Unit := fun c => .ok () c.readGap

def tooDeep {α : Type} : Parse α := fun _ => .tooDeep

def fail {α : Type} (missing : Missing) : Parse α := fun c => .failed ⟨missing, c.start⟩

def mark (m : Mark) : Parse Unit := fun c =>
  if c.token? = some (.mark m) then .ok () c.skip else .failed ⟨.mark m, c.start⟩

def keyword (k : Keyword) : Parse Unit := fun c =>
  if c.token? = some (.keyword k) then .ok () c.skip else .failed ⟨.construct, c.start⟩

/-- A name; a keyword in its place fails right behind the token before. -/
def name : Parse String := fun c =>
  match c.token? with
  | some (.name s) => .ok s c.skip
  | some (.keyword _) => .failed ⟨.construct, c.gap.origin⟩
  | _ => .failed ⟨.construct, c.start⟩

def operator (l : Operator.Level) : Parse Operator := fun c =>
  match c.token? with
  | some (.operator o) => if o.level = l then .ok o c.skip else .failed ⟨.construct, c.start⟩
  | _ => .failed ⟨.construct, c.start⟩

def endOfText : Parse Unit := fun c =>
  if c.lexemes.isEmpty && !c.stray then .ok () c else .failed ⟨.endOfText, c.start⟩

/-- The first reading, or the second in its place if it fails. -/
def orElse {α : Type} (p q : Parse α) : Parse α := fun c =>
  match p c with
  | .failed _ => q c
  | r => r

/-- A reading that may be missing; the gap is then read. -/
def optional {α : Type} (p : Parse α) : Parse (Option α) := fun c =>
  match p c with
  | .ok a c' => .ok (some a) c'
  | .failed _ => .ok none c.readGap
  | .tooDeep => .tooDeep

/-- A reading as often as it succeeds, at most `limit` times. -/
def upTo {α : Type} (p : Parse α) : Nat → Parse (List α)
  | 0 => fun c => .ok [] c
  | limit + 1 => fun c =>
    match p c with
    | .ok a c' =>
      match upTo p limit c' with
      | .ok as c'' => .ok (a :: as) c''
      | .failed e => .failed e
      | .tooDeep => .tooDeep
    | .failed _ => .ok [] c
    | .tooDeep => .tooDeep

/-- A reading as often as it succeeds; every one is to read a token. Where there is none, the gap
is read. -/
def many {α : Type} (p : Parse α) : Parse (List α) := fun c =>
  match upTo p c.lexemes.length c with
  | .ok [] c' => .ok [] c'.readGap
  | r => r

/-- Items with commas between them, or none; the gap before the first one is read. -/
def commaList {α : Type} (item : Parse α) : Parse (List α) := do
  readGap
  let first ← optional item
  match first with
  | none => return []
  | some a =>
    let rest ← many (do mark .comma; item)
    return a :: rest

end Parse

end Bronti.Syntax
