import Bronti.CommandLine.Files
import Bronti.CommandLine.Options
import Bronti.Session

/-!
The program behind the command line, apart from reading its source: what it prints on either
channel, and its exit status.
-/
namespace Bronti.CommandLine

/-- What a program leaves behind. -/
structure Finished where
  status : Nat
  out : String
  err : String
deriving DecidableEq, Repr

def usage : String :=
  "usage: bronti [-h] [--parse] [--analyze] [--debug] [--version] [script]\n"

def versionText : String := "Bronti v0.1.0\n"

/-- What the program says about itself. -/
def helpText : String :=
  usage ++ Datum.unlines
    [
      "",
      "Bronti Programming Language - integers, functions and loops",
      "",
      "positional arguments:",
      "  script      Bronti script file to execute (default: standard input)",
      "",
      "options:",
      "  -h, --help  show this help message and exit",
      "  --parse     Parse program and show CST (for debugging)",
      "  --analyze   Parse and analyze program, show AST (for debugging)",
      "  --debug     Enable debug output for all stages",
      "  --version   show program's version number and exit",
      "",
      "Examples:",
      "  bronti script.bronti            # Run a Bronti script",
      "  bronti < script.bronti          # Run a program read from stdin",
      "  bronti --parse script.bronti    # Parse and show CST",
      "  bronti --analyze script.bronti  # Parse, analyze and show AST",
      "  bronti --debug script.bronti    # Run with debug output on stderr",
      "        "
    ]

/-- What stands for the calls that led to an error of evaluation. -/
def callTrace : String := "<traceback>"

/-- Nesting or recursion beyond the limit. -/
def depthMessage : String := "Evaluation error: maximum recursion depth exceeded.\n"

/-- The message of a fault of a tree. -/
def faultMessage : Fault → String
  | .unknownKind kind => "Unknown node type: " ++ kind
  | .unknownOperator symbol => Text.quote symbol
  | .noChild => "list index out of range"
  | .missingEntry => "missing entry"
  | .unfitValue => "unfit value"
  | .lastFrame => "Cannot close the base scope"

/-- What is written about a problem. -/
def problemText (debug : Bool) : Problem → String
  | .unread _ r => r.render
  | .tooDeep => depthMessage
  | .unfinished => depthMessage
  | .defect (.rejected r) => r.render ++ "\n"
  | .defect (.kindOfPlain d) => d.quoted ++ " is no node\n"
  | .defect (.notCollection d) => d.quoted ++ " is no collection\n"
  | .stopped (.error e) => e.render ++ "\n" ++ (if debug then callTrace else "")
  | .stopped (.fault f) => faultMessage f ++ "\n"

/-- The end of a session, whose answer is written in its own way. -/
def finish {α : Type} (debug : Bool) (s : Session α) (write : α → String) : Finished :=
  match s.answer with
  | .ok a => ⟨0, s.printed ++ write a, s.trace⟩
  | .error p => ⟨1, s.printed, s.trace ++ problemText debug p⟩

/-- A source at work, by the options. -/
def execute (o : Options) (file text : String) : Finished :=
  if o.parse then finish o.debug (Session.readProgram file o.debug text) fun d => d.dump 0
  else if o.analyze then
    finish o.debug (Session.lowerText file o.debug text) fun a => a.record.embed.dumpLowered 0
  else
    finish o.debug (Session.runText file o.debug text) fun n => s!"Program finished with code: {n}\n"

/-- The program on octets that were read, or not. -/
def executeBytes (o : Options) (file : String) (source : Except ReadError (List UInt8)) : Finished :=
  match source.bind textOf with
  | .ok text => execute o file text
  | .error e => ⟨1, "", "IO exception: " ++ e.message ++ "\n"⟩

/-- Where a source comes from. -/
inductive Origin
  | standardInput
  | file (path : String)

/-- The origin that the options name. -/
def Options.origin (o : Options) : Origin :=
  if o.script = "-" then .standardInput else .file o.script

/-- The name of an origin in messages. -/
def Origin.name : Origin → String
  | standardInput => "<stdin>"
  | file path => path

/-- The end of a request that needs no source. -/
def Request.finished? : Request → Except Finished Options
  | help => .error ⟨0, helpText, ""⟩
  | version => .error ⟨0, versionText, ""⟩
  | misuse e => .error ⟨2, "", usage ++ "bronti: error: " ++ e.message ++ "\n"⟩
  | run o => .ok o

/-- The program with its arguments, its standard input and the files it may read. -/
def runWith (arguments : List String) (input : List UInt8) (files : Files) : Finished :=
  match (request arguments).finished? with
  | .error f => f
  | .ok o =>
    match o.origin with
    | .standardInput => executeBytes o o.origin.name (.ok input)
    | .file path => executeBytes o o.origin.name (files.read path)

end Bronti.CommandLine
