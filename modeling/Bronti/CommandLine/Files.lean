import Bronti.Text.Lines
import Bronti.Text.Quoted
import Bronti.Text.Utf8

/-!
Files by name, and the failures of reading one as text.
-/
namespace Bronti.CommandLine

/-- Why a file or the standard input is not read. -/
inductive ReadError
  | missing (path : String)
  | directory (path : String)
  | notDirectory (path : String)
  | tooLong (path : String)
  | malformed (m : Text.Utf8.Malformed)
  | other (message : String)
deriving Repr

/-- The reason why octets spell no character. -/
def reasonText : Text.Utf8.Reason → String
  | .startByte => "invalid start byte"
  | .continuationByte => "invalid continuation byte"
  | .endOfData => "unexpected end of data"

/-- The message about octets that spell no character. -/
def malformedText (m : Text.Utf8.Malformed) : String :=
  let place :=
    if m.first = m.last then
      "byte 0x" ++ String.ofList (Text.hex 2 m.lead) ++ " in position " ++ toString m.first
    else "bytes in position " ++ toString m.first ++ "-" ++ toString m.last
  "'utf-8' codec can't decode " ++ place ++ ": " ++ reasonText m.reason

def ReadError.message : ReadError → String
  | missing path => "[Errno 2] No such file or directory: " ++ Text.quote path
  | directory path => "[Errno 21] Is a directory: " ++ Text.quote path
  | notDirectory path => "[Errno 20] Not a directory: " ++ Text.quote path
  | tooLong path => "[Errno 36] File name too long: " ++ Text.quote path
  | malformed m => malformedText m
  | other message => message

/-- Octets as text with newlines only. -/
def textOf (bytes : List UInt8) : Except ReadError String :=
  match Text.Utf8.decode bytes with
  | .ok cs => .ok (String.ofList (Text.normalizeNewlines cs))
  | .error m => .error (.malformed m)

/-- Files under a directory: the names that lead to each from there, and its content. -/
abbrev Files := List (List String × List UInt8)

/-- Where a path leads: to a directory, to one above all files, to a file, beyond a file, to a name
that is too long, or nowhere. -/
inductive Place
  | directory (names : List String)
  | above
  | file (bytes : List UInt8)
  | beyondFile
  | tooLong
  | nowhere

namespace Files

/-- The content of the file that the names lead to. -/
def content? (files : Files) (names : List String) : Option (List UInt8) :=
  (files.find? fun f => f.1 = names).map Prod.snd

/-- Some file lies further along the names. -/
def isDirectory (files : Files) (names : List String) : Bool :=
  files.any fun f => names.isPrefixOf f.1 && names.length < f.1.length

/-- The most octets that a name in a directory may have. -/
def maxName : Nat := 255

/-- The most octets that a path may have. -/
def maxPath : Nat := 4095

/-- One part of a path; an empty part and `.` stay in a directory. -/
def follow (files : Files) (p : Place) (part : String) : Place :=
  match p with
  | .directory names =>
    if part = "" ∨ part = "." then .directory names
    else if part = ".." then
      if names.isEmpty then .above else .directory names.dropLast
    else if maxName < part.utf8ByteSize then .tooLong
    else
      match files.content? (names ++ [part]) with
      | some bytes => .file bytes
      | none => if files.isDirectory (names ++ [part]) then .directory (names ++ [part]) else .nowhere
  | .above =>
    if part = "" ∨ part = "." ∨ part = ".." then .above
    else if maxName < part.utf8ByteSize then .tooLong
    else .nowhere
  | .file _ => .beyondFile
  | p => p

def place (files : Files) (path : String) : Place :=
  (path.splitOn "/").foldl files.follow
    (if path.toList.head? = some '/' then .above else .directory [])

/-- The content of the file at a path. -/
def read (files : Files) (path : String) : Except ReadError (List UInt8) :=
  if path.isEmpty then .error (.missing path)
  else if maxPath < path.utf8ByteSize then .error (.tooLong path)
  else match files.place path with
    | .file bytes => .ok bytes
    | .directory _ => .error (.directory path)
    | .above => .error (.directory path)
    | .beyondFile => .error (.notDirectory path)
    | .tooLong => .error (.tooLong path)
    | .nowhere => .error (.missing path)

end Files

end Bronti.CommandLine
