import EmphasisSpacing.Emphasis.Fetch
import EmphasisSpacing.Files.FileSystem
import EmphasisSpacing.Files.Pattern
import EmphasisSpacing.Inputs.Source
import EmphasisSpacing.Report.Log

/-!
# Sessions

A command runs in surroundings that it can only look at, and on a session that it changes: the files, what
is left of standard input, and what was written so far. A failure ends the command but keeps the session,
with everything that was done before.

A file that is there may still refuse to be read or to be written. Which files do is a matter of the
surroundings, and the session keeps a record of those that were written.
-/

namespace EmphasisSpacing

/-- What a command can look at. -/
structure Surroundings where
  env : Environment
  /-- Why writing to standard output fails; nothing when it works. -/
  outputFault : Option Bytes
  /-- The answers to requests on the web. -/
  replies : Address → Reply
  /-- How exclude patterns are read. -/
  matcher : Pattern.Matcher
  /-- Why the file at a path cannot be read although it is there; nothing when it can. -/
  readFault : (path : Bytes) → Option FileError
  /-- Why the file at a path cannot be opened for writing; nothing when it can. -/
  writeFault : (path : Bytes) → Option FileError

/-- Surroundings with the standard patterns, where every file can be read and written. -/
def Surroundings.standard (env : Environment) (outputFault : Option Bytes)
    (replies : Address → Reply) : Surroundings :=
  ⟨env, outputFault, replies, Pattern.standard, fun _ => none, fun _ => none⟩

/-- What a command can change. -/
structure Session where
  files : FileSystem
  /-- What is left of standard input. -/
  input : Bytes
  /-- What was written to standard output. -/
  output : Bytes
  /-- What was written to standard error. -/
  errors : Bytes
  /-- The paths of the files that were opened for writing, in order. -/
  written : List Bytes
  deriving DecidableEq, Repr

/-- A session at its start. -/
def Session.start (files : FileSystem) (input : Bytes) : Session := ⟨files, input, [], [], []⟩

/-- An end of a command without success. -/
structure Failure where
  code : Int
  /-- What to report; nothing for a quiet end. -/
  message : Option Bytes
  deriving DecidableEq, Repr

namespace Failure

/-- A failure while doing what was asked. -/
def general (message : Bytes) : Failure := ⟨1, some message⟩

/-- A command that was asked for in the wrong way. -/
def usage (message : Bytes) : Failure := ⟨2, some message⟩

/-- An end without success and without words. -/
def quiet : Failure := ⟨1, none⟩

/-- The words for a failure; for a quiet one its code. -/
def words (f : Failure) : Bytes := f.message.getD (bytes "exit status " ++ Integer.ofInt f.code)

end Failure

/-- The exit code of a command that ended in the given way. -/
def exitCode : Except Failure Unit → Int
  | .ok () => 0
  | .error f => f.code

/-- The words of a failure after an output was closed, where a failure before it wins. -/
def afterClosing (earlier closing : Option Bytes) : Option Bytes :=
  earlier <|> closing.map (bytes "close output: " ++ ·)

/-- Where a command writes documents. -/
inductive Output where
  | standard
  | file (path : Bytes)
  deriving DecidableEq, Repr

namespace Session

/-! ### Writing -/

/-- The session after a line on standard error. -/
def tell (s : Session) (line : Bytes) : Session := { s with errors := s.errors ++ line ++ [Bytes.lf] }

/-- The session after log entries; the less important ones are only written if `verbose`. -/
def log (verbose : Bool) (entries : List Log.Entry) (s : Session) : Session :=
  { s with errors := s.errors ++ Log.render verbose entries }

/-- The session after a text on an output, or why it cannot be written. -/
def write (a : Surroundings) (text : Bytes) (s : Session) : Output → Except Bytes Session
  | .standard =>
    match a.outputFault with
    | some fault => .error fault
    | none => .ok { s with output := s.output ++ text }
  | .file path => .ok { s with files := s.files.append path text }

/-- The session after a text on standard output, if it can be written. -/
def display (a : Surroundings) (text : Bytes) (s : Session) : Session :=
  match s.write a text .standard with
  | .ok s => s
  | .error _ => s

/-- The session after a file got the given content. The file is made if it is missing. -/
def writeFile (a : Surroundings) (s : Session) (path content : Bytes) : Except FileError Session :=
  match s.files.write path content, a.writeFault path with
  | .error e, _ => .error e
  | .ok _, some e => .error e
  | .ok files, none => .ok { s with files := files, written := s.written ++ [path] }

/-! ### Reading -/

/-- The content of a local file. -/
def readFile (a : Surroundings) (files : FileSystem) (path : Bytes) : Except FileError Bytes :=
  match files.read path, a.readFault path with
  | .error e, _ => .error e
  | .ok _, some e => .error e
  | .ok content, none => .ok content

/-- Formats the content of a local file. -/
def formatFile (a : Surroundings) (settings : Settings) (files : FileSystem) (path : Bytes) :
    Except Bytes Outcome :=
  match readFile a files path with
  | .ok content => (formatStream settings (.holding content) .absent).mapError StreamError.message
  | .error e =>
    if e.operation == .read then .error (StreamError.read e.message).message else .error e.message

/-- Formats the document of a source. Standard input is read to its end, so that nothing is left for
another source. -/
def formatSource (a : Surroundings) (settings : Settings) (s : Session) :
    Source → Session × Except Bytes Outcome
  | .standardInput =>
    ({ s with input := [] },
      (formatStream settings (.holding s.input) .absent).mapError StreamError.message)
  | .web address =>
    (s, (formatFetched settings a.replies address .absent).mapError FetchError.message)
  | .file _ path => (s, formatFile a settings s.files path)

/-- The failure for a source that cannot be formatted. -/
def sourceFailure (source : Source) (message : Bytes) : Failure :=
  .general (source.name ++ bytes ": " ++ message)

end Session

end EmphasisSpacing
