import EmphasisSpacing.Command.Session
import EmphasisSpacing.Diff.Unified
import EmphasisSpacing.Inputs.Collect
import EmphasisSpacing.Text.Truth

/-!
# Fixing documents

The documents are formatted one after the other. What was formatted is written to an output, back to its
file, or shown as a difference. The first document that cannot be formatted ends the command; what was
done before stays.
-/

namespace EmphasisSpacing

namespace Fix

/-- What the command is asked for. -/
structure Options where
  settings : Settings
  verbose : Bool
  /-- Write documents back to their files. -/
  write : Bool
  /-- The output file; empty for standard output. -/
  output : Bytes
  /-- Show differences instead of documents. -/
  diff : Bool
  silent : Bool
  excludes : List Bytes
  deriving DecidableEq, Repr

/-! ### The output -/

/-- The session after the output file was made empty, with all folders above it. -/
def createFile (a : Surroundings) (s : Session) (path : Bytes) : Session × Except FileError Unit :=
  match s.files.makeFolders (Path.directory path) with
  | (files, .error e) => ({ s with files := files }, .error e)
  | (files, .ok ()) =>
    let s := { s with files := files }
    match s.writeFile a path [] with
    | .ok s => (s, .ok ())
    | .error e => (s, .error e)

/-- Makes the output ready. A blank name means standard output. -/
def openOutput (a : Surroundings) (name : Bytes) (s : Session) : Session × Except Failure Output :=
  if (WhiteSpace.trim name).isEmpty then (s, .ok .standard)
  else
    let path := Source.localPath a.env s.files.cwd name
    match createFile a s path with
    | (s, .ok ()) => (s, .ok (.file path))
    | (s, .error e) => (s, .error (.general (bytes "open output: " ++ e.message)))

/-- The session after the difference of an outcome was written; nothing is written when there is
none. -/
def writeDiff (a : Surroundings) (output : Output) (name : Bytes) (o : Outcome) (s : Session) :
    Except Failure Session :=
  let text := Diff.unified name o.text o.formatted
  if text.isEmpty then .ok s
  else match s.write a text output with
    | .ok s => .ok s
    | .error fault => .error (.general (bytes "write diff: " ++ fault))

/-- The session after a file got the given content. The file has to be there. -/
def replaceFile (a : Surroundings) (s : Session) (path content : Bytes) : Except FileError Session :=
  match s.files.stat path with
  | .ok _ => s.writeFile a path content
  | .error e => .error e

/-- The session after a document was written back to its file, if it changed. -/
def writeBack (a : Surroundings) (source : Source) (o : Outcome) (s : Session) :
    Except Failure Session :=
  if !o.changed then .ok s
  else match replaceFile a s source.path o.formatted with
    | .ok s => .ok s
    | .error e => .error (.general (bytes "write " ++ source.name ++ bytes ": " ++ e.message))

/-- The session after an outcome was written as the options say. -/
def deliver (a : Surroundings) (opts : Options) (output : Output) (source : Source) (o : Outcome)
    (s : Session) : Except Failure Session :=
  if opts.diff then writeDiff a output source.name o s
  else if opts.write then writeBack a source o s
  else match s.write a o.formatted output with
    | .ok s => .ok s
    | .error fault => .error (.general (bytes "write output: " ++ fault))

/-! ### The documents -/

/-- The log entry on a document. -/
def note (source : Source) (o : Outcome) : Log.Entry :=
  ⟨.debug, bytes "formatted",
    [(bytes "path", source.name), (bytes "changed", Truth.write o.changed)]⟩

/-- Handles the documents one after the other; the result is how many of them changed. -/
def documents (a : Surroundings) (opts : Options) (output : Output) :
    List Source → Session → Session × Except Failure Nat
  | [], s => (s, .ok 0)
  | source :: rest, s =>
    match s.formatSource a opts.settings source with
    | (s, .error message) => (s, .error (Session.sourceFailure source message))
    | (s, .ok o) =>
      let s := s.log opts.verbose [note source o]
      match deliver a opts output source o s with
      | .error f => (s, .error f)
      | .ok s =>
        let (s, changed) := documents a opts output rest s
        (s, changed.map (· + if o.changed then 1 else 0))

/-- The report on how many documents changed. -/
def report (changed : Nat) : Bytes :=
  if changed == 0 then bytes "no changes needed"
  else bytes "fixed spacing in " ++ Integer.ofNat changed ++ bytes " file(s)"

/-- A document that cannot be written back, if the options ask for that. -/
def unwritable? (opts : Options) (sources : List Source) : Option Source :=
  if opts.write then sources.find? (!·.isWritable) else none

/-- Handles the collected documents. -/
def onSources (a : Surroundings) (opts : Options) (sources : List Source) (s : Session) :
    Session × Except Failure Unit :=
  match openOutput a opts.output s with
  | (s, .error f) => (s, .error f)
  | (s, .ok output) =>
    match documents a opts output sources s with
    | (s, .error f) => (s, .error f)
    | (s, .ok changed) => (if opts.silent then s else s.tell (report changed), .ok ())

/-- Runs the command. -/
def run (a : Surroundings) (opts : Options) (arguments : List Bytes) (s : Session) :
    Session × Except Failure Unit :=
  if opts.write && !opts.output.isEmpty then
    (s, .error (.usage (bytes "--write and --output are mutually exclusive")))
  else
    let (notes, collected) := collect a.matcher s.files a.env opts.excludes arguments
    let s := s.log opts.verbose notes
    match collected with
    | .error e => (s, .error (.general (bytes "open input: " ++ e.message)))
    | .ok sources =>
      match unwritable? opts sources with
      | some source =>
        (s, .error (.usage (bytes "--write needs local files; " ++ source.name ++ bytes " is not one")))
      | none => onSources a opts sources s

end Fix

end EmphasisSpacing
