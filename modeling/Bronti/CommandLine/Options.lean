import Bronti.Text.CharClass
import Bronti.Text.Quoted

/-!
Command line options. Long options may be shortened as long as one of them begins so; none takes
an argument; behind `--` nothing is an option. At most one argument is the script.
-/
namespace Bronti.CommandLine

/-- An option. -/
inductive Flag
  | help | parse | analyze | debug | version
deriving DecidableEq, Repr

namespace Flag

def all : List Flag := [help, parse, analyze, debug, version]

/-- The spelling of an option in full. -/
def long : Flag → String
  | help => "--help" | parse => "--parse" | analyze => "--analyze" | debug => "--debug"
  | version => "--version"

def spellings (f : Flag) : List String := if f = help then ["-h", f.long] else [f.long]

def ofSpelling? (s : String) : Option Flag := all.find? fun f => s ∈ f.spellings

/-- The name of an option in messages. -/
def name (f : Flag) : String := "/".intercalate f.spellings

end Flag

/-- What follows an option in its argument: nothing, a value behind an equals sign, or more letters
that touch a short option. -/
inductive Tail
  | nothing
  | value (s : String)
  | letters (cs : List Char)
deriving DecidableEq, Repr

/-- An argument by its form. -/
inductive Argument
  | plain (s : String)
  | separator
  | flag (f : Flag) (tail : Tail)
  | unknown (s : String)
deriving DecidableEq, Repr

/-- What is wrong with a command line. -/
inductive UsageError
  | ambiguous (argument : String) (matching : List String)
  | unexpectedValue (f : Flag) (value : String)
  | unrecognized (arguments : List String)
deriving DecidableEq, Repr

def UsageError.message : UsageError → String
  | ambiguous argument matching =>
    s!"ambiguous option: {argument} could match " ++ ", ".intercalate matching
  | unexpectedValue f value => s!"argument {f.name}: ignored explicit argument " ++ Text.quote value
  | unrecognized arguments => "unrecognized arguments: " ++ " ".intercalate arguments

/-- The two sides of the first equals sign of a text. -/
def splitEquals? (cs : List Char) : Option (List Char × List Char) :=
  if '=' ∈ cs then some (cs.takeWhile (· != '='), (cs.dropWhile (· != '=')).drop 1) else none

/-- A text of decimal digits, of one at least; a newline may end it. -/
def isDigits (cs : List Char) : Bool :=
  let ds := cs.takeWhile fun c => (Text.digitValue? c).isSome
  !ds.isEmpty && (cs.drop ds.length == [] || cs.drop ds.length == ['\n'])

/-- A negative number, with or without a fraction. -/
def isNegativeNumber : List Char → Bool
  | '-' :: cs =>
    isDigits cs ||
      match cs.dropWhile fun c => (Text.digitValue? c).isSome with
      | '.' :: rest => isDigits rest
      | _ => false
  | _ => false

/-- An argument in front of which stands no `--`. -/
def classify (s : String) : Except UsageError Argument :=
  match s.toList with
  | [] => .ok (.plain s)
  | ['-'] => .ok (.plain s)
  | '-' :: d :: cs =>
    match Flag.ofSpelling? s with
    | some f => .ok (.flag f .nothing)
    | none =>
      let split := splitEquals? ('-' :: d :: cs)
      match split.bind fun p => (Flag.ofSpelling? (String.ofList p.1)).map fun f => (f, p.2) with
      | some (f, value) => .ok (.flag f (.value (String.ofList value)))
      | none =>
        let fallback : Argument :=
          if isNegativeNumber ('-' :: d :: cs) || ' ' ∈ cs || d == ' ' then .plain s else .unknown s
        if d = '-' then
          let stem := (split.map Prod.fst).getD ('-' :: d :: cs)
          let tail := match split with
            | some p => .value (String.ofList p.2)
            | none => .nothing
          match Flag.all.filter fun f => stem.isPrefixOf f.long.toList with
          | [] => .ok fallback
          | [f] => .ok (.flag f tail)
          | fs => .error (.ambiguous s (fs.map Flag.long))
        else if d = 'h' then .ok (.flag .help (.letters cs))
        else .ok fallback
  | _ => .ok (.plain s)

/-- Arguments by their form; behind the first `--` all are plain. -/
def classifyAll : List String → Except UsageError (List Argument)
  | [] => .ok []
  | s :: ss =>
    if s = "--" then .ok (.separator :: ss.map .plain)
    else
      match classify s with
      | .error e => .error e
      | .ok a =>
        match classifyAll ss with
        | .error e => .error e
        | .ok as => .ok (a :: as)

/-- What a command line asks for. -/
structure Options where
  script : String
  parse : Bool
  analyze : Bool
  debug : Bool
deriving DecidableEq, Repr

/-- What a command line comes to. -/
inductive Request
  | help
  | version
  | misuse (e : UsageError)
  | run (o : Options)
deriving DecidableEq, Repr

/-- What is known in the middle of a command line: the options so far, whether the script is taken,
and the arguments that have no meaning. -/
structure Progress where
  options : Options
  taken : Bool
  extras : List String

/-- The text of an argument that is no known option. -/
def Argument.text : Argument → String
  | plain s => s
  | separator => "--"
  | flag f _ => f.long
  | unknown s => s

/-- An option that holds from here on. -/
def Progress.set (p : Progress) (f : Flag) : Progress :=
  match f with
  | .parse => { p with options := { p.options with parse := true } }
  | .analyze => { p with options := { p.options with analyze := true } }
  | .debug => { p with options := { p.options with debug := true } }
  | _ => p

/-- The value that the letters behind `-h` hold; letters other than `h` end the group. -/
def lettersValue? : List Char → Option (List Char)
  | 'h' :: '=' :: cs => some cs
  | 'h' :: cs => lettersValue? cs
  | '-' :: cs => some ('-' :: cs)
  | _ => none

/-- The value that an option was given and does not take. -/
def Tail.unexpected? : Tail → Option String
  | nothing => none
  | value s => some s
  | letters cs => (lettersValue? cs).map String.ofList

/-- How many arguments of a run of plain ones the script takes with the `--` around it. -/
def scriptWidth (run : List Argument) : Nat :=
  let before := (run.takeWhile (· == .separator)).length
  let own := min 1 (run.length - before)
  before + own + ((run.drop (before + own)).takeWhile (· == .separator)).length

/-- The plain arguments at the front taken in: the script first, if it is not taken yet. -/
def Progress.takePlain (p : Progress) (run : List Argument) : Progress :=
  if run.isEmpty then p
  else if p.taken then { p with extras := p.extras ++ run.map Argument.text }
  else
    let width := scriptWidth run
    let own := ((run.take width).map Argument.text).erase "--"
    { options := { p.options with script := own.headD p.options.script }
      taken := true
      extras := p.extras ++ (run.drop width).map Argument.text }

/-- An argument that is neither an option nor taken for one. -/
def Argument.isPlain : Argument → Bool
  | plain _ => true
  | separator => true
  | _ => false

/-- The command line from an argument on; `run` is the run of plain arguments before it. -/
def requestFrom (p : Progress) (run : List Argument) : List Argument → Request
  | [] =>
    let q := p.takePlain run
    if q.extras.isEmpty then .run q.options else .misuse (.unrecognized q.extras)
  | a :: as =>
    match a with
    | .plain _ => requestFrom p (run ++ [a]) as
    | .separator => requestFrom p (run ++ [a]) as
    | .unknown s =>
      let q := p.takePlain run
      requestFrom { q with extras := q.extras ++ [s] } [] as
    | .flag f tail =>
      match tail.unexpected? with
      | some v => .misuse (.unexpectedValue f v)
      | none =>
        match f with
        | .help => .help
        | .version => .version
        | f => requestFrom ((p.takePlain run).set f) [] as

/-- What the arguments of a command line ask for. -/
def request (arguments : List String) : Request :=
  match classifyAll arguments with
  | .error e => .misuse e
  | .ok as => requestFrom ⟨⟨"-", false, false, false⟩, false, []⟩ [] as

end Bronti.CommandLine
