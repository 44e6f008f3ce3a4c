import EmphasisSpacing.Command.Session
import EmphasisSpacing.Emphasis.Selection
import EmphasisSpacing.Inputs.Collect
import EmphasisSpacing.Report.Render
import EmphasisSpacing.Report.Width

/-!
# Showing hints

The hints of each document are rendered on standard output. What the flags ask for is checked before any
document is looked at.
-/

namespace EmphasisSpacing

namespace ShowHints

/-- What the command is asked for. -/
structure Options where
  settings : Settings
  verbose : Bool
  /-- The offset of the cursor; none when negative. -/
  cursor : Int
  selection : Bytes
  /-- The name of the theme, if one is given. -/
  theme : Option Bytes
  width : Int
  /-- Whether to write links. -/
  links : Bytes
  excludes : List Bytes
  deriving DecidableEq, Repr

/-- How hints are selected and shown, once the flags were checked. -/
structure Plan where
  theme : Theme
  links : Bool
  selections : List Stretch
  deriving DecidableEq, Repr

/-- The word for links where the terminal decides. -/
def automatic : Bytes := bytes "auto"

/-- The theme. Without a given one the output is plain, because it is no terminal. -/
def theme (opts : Options) : Except Failure Theme :=
  match opts.theme with
  | none => .ok .boring
  | some name =>
    match Theme.ofName? name with
    | some t => .ok t
    | none =>
      .error (.usage (bytes "unknown theme " ++ Quoted.text name ++ bytes " (available: " ++
        Bytes.joinWith (bytes ", ") Theme.names ++ bytes ")"))

/-- Whether to write links. Where the terminal decides there are none, because the output is no
terminal. -/
def links (a : Surroundings) (opts : Options) : Except Failure Bool :=
  match Link.wanted? a.env opts.links with
  | none =>
    .error (.usage (bytes "invalid --osc8 " ++ Quoted.text opts.links ++ bytes ": " ++
      Link.modeMessage))
  | some wanted => .ok (wanted && opts.links != automatic)

/-- The stretches of the cursor and the selection. -/
def selections (opts : Options) : Except Failure (List Stretch) :=
  let cursor := if 0 ≤ opts.cursor then [Stretch.between opts.cursor opts.cursor] else []
  if opts.selection.isEmpty then .ok cursor
  else match Selection.read opts.selection with
    | .ok (start, stop) => .ok (cursor ++ [Stretch.between start stop])
    | .error e => .error (.usage (bytes "--selection: " ++ e.message))

/-- Checks the flags. -/
def plan (a : Surroundings) (opts : Options) : Except Failure Plan := do
  let theme ← theme opts
  let links ← links a opts
  let selections ← selections opts
  return ⟨theme, links, selections⟩

/-- The log entry on a document. -/
def note (source : Source) (count : Nat) : Log.Entry :=
  ⟨.debug, bytes "hints", [(bytes "path", source.name), (bytes "count", Integer.ofNat count)]⟩

/-- How standard output takes the hints. -/
def writer (a : Surroundings) : Writer :=
  match a.outputFault with
  | some fault => .broken fault
  | none => .working

/-- Shows the hints of the documents one after the other. -/
def documents (a : Surroundings) (opts : Options) (p : Plan) :
    List Source → Session → Session × Except Failure Unit
  | [], s => (s, .ok ())
  | source :: rest, s =>
    match s.formatSource a opts.settings source with
    | (s, .error message) => (s, .error (Session.sourceFailure source message))
    | (s, .ok o) =>
      let found := hints opts.settings p.selections o.text
      let s := s.log opts.verbose [note source found.length]
      let look : Render.Options :=
        { cwd := s.files.cwd
          path := source.name
          width := Width.resolve a.env opts.width
          theme := p.theme
          links := p.links
          ruler := Cells.standard }
      match Render.toWriter (writer a) look o.text found with
      | .error e => (s, .error (.general e.message))
      | .ok text => documents a opts p rest { s with output := s.output ++ text }

/-- Runs the command. -/
def run (a : Surroundings) (opts : Options) (arguments : List Bytes) (s : Session) :
    Session × Except Failure Unit :=
  match plan a opts with
  | .error f => (s, .error f)
  | .ok p =>
    let (notes, collected) := collect a.matcher s.files a.env opts.excludes arguments
    let s := s.log opts.verbose notes
    match collected with
    | .error e => (s, .error (.general (bytes "open input: " ++ e.message)))
    | .ok sources => documents a opts p sources s

end ShowHints

end EmphasisSpacing
