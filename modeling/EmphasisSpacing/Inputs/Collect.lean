import EmphasisSpacing.Files.FileSystem
import EmphasisSpacing.Files.Pattern
import EmphasisSpacing.Inputs.Source
import EmphasisSpacing.Inputs.Walk
import EmphasisSpacing.Report.Log

/-!
# Collecting documents

The arguments of a command become a list of documents: directories are walked, excluded files are left
out with a note. Without arguments there is one document, standard input. The first argument that cannot
be used ends the collection; the notes up to there stay.
-/

namespace EmphasisSpacing

namespace Collect

/-- Why documents cannot be collected. -/
inductive Error where
  | badPattern (pattern : Bytes)
  | blankArgument
  | file (error : FileError)
  deriving DecidableEq, Repr

/-- The words for an error. -/
def Error.message : Error → Bytes
  | .badPattern p => bytes "invalid exclude pattern " ++ Quoted.text p
  | .blankArgument => Source.blankMessage
  | .file e => e.message

/-- The note on an excluded argument. -/
def excludedNote (name : Bytes) : Log.Entry :=
  ⟨.warn, bytes "skipping excluded input", [(bytes "path", name)]⟩

/-- The document that an event of a walk gives. -/
def sourceOf? : Walk.Event → Option Source
  | .found name path => some (.file name path)
  | _ => none

/-- The note that an event of a walk leaves. -/
def noteOf? : Walk.Event → Option Log.Entry
  | .found _ _ => none
  | .excludedFile name => some ⟨.debug, bytes "skipping excluded file", [(bytes "path", name)]⟩
  | .excludedFolder name =>
    some ⟨.debug, bytes "skipping excluded directory", [(bytes "path", name)]⟩

/-- How to walk the folder of a source, where `matching` says which patterns match which names. -/
def optionsBy (matching : (pattern name : Bytes) → Bool) (patterns : List Bytes) (name path : Bytes) :
    Walk.Options :=
  ⟨path, name, fun name relative => Pattern.excludesBy matching patterns [name, relative]⟩

/-- Walks the folder of a source, where `matching` says which patterns match which names. -/
def walkBy (matching : (pattern name : Bytes) → Bool) (patterns : List Bytes) (name path : Bytes)
    (inside : Directory) : List Walk.Event :=
  Walk.events (optionsBy matching patterns name path) [] inside

/-- The documents of one source, and the notes on it. -/
def ofSource (matcher : Pattern.Matcher) (fs : FileSystem) (patterns : List Bytes) (source : Source) :
    Except Error (List Log.Entry × List Source) :=
  match source with
  | .file name path =>
    match fs.stat path with
    | .error e => .error (.file e)
    | .ok (.file _) =>
      .ok (if Pattern.excludesBy matcher.holds patterns [name] then ([excludedNote name], [])
        else ([], [source]))
    | .ok (.folder inside) =>
      let events := walkBy matcher.holds patterns name path inside
      .ok (events.filterMap noteOf?, events.filterMap sourceOf?)
  | source => .ok ([], [source])

/-- The documents of arguments, in order, and the notes on them. -/
def ofArguments (matcher : Pattern.Matcher) (fs : FileSystem) (env : Environment)
    (patterns : List Bytes) : List Bytes → List Log.Entry × Except Error (List Source)
  | [] => ([], .ok [])
  | arg :: args =>
    match Source.ofArgument? env fs.cwd arg with
    | none => ([], .error .blankArgument)
    | some source =>
      match ofSource matcher fs patterns source with
      | .error e => ([], .error e)
      | .ok (notes, sources) =>
        let (more, rest) := ofArguments matcher fs env patterns args
        (notes ++ more, rest.map (sources ++ ·))

end Collect

/-- The documents that the arguments of a command name, and the notes on them. -/
def collect (matcher : Pattern.Matcher) (fs : FileSystem) (env : Environment)
    (patterns arguments : List Bytes) : List Log.Entry × Except Collect.Error (List Source) :=
  match patterns.find? (!matcher.isValid ·) with
  | some p => ([], .error (.badPattern p))
  | none =>
    if arguments.isEmpty then ([], .ok [.standardInput])
    else Collect.ofArguments matcher fs env patterns arguments

end EmphasisSpacing
