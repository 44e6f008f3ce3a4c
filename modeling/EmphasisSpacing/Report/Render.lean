import EmphasisSpacing.Emphasis.Hint
import EmphasisSpacing.Emphasis.Stream
import EmphasisSpacing.Report.Fit
import EmphasisSpacing.Report.Link
import EmphasisSpacing.Report.Theme

/-!
# Rendering hints

Each hint takes three lines: its location and message, the source line around the marker, and carets
under the marker. The last two are indented by the gutter and fit into the width of the terminal.
-/

namespace EmphasisSpacing

namespace Render

/-- What the second and third line of a hint start with. -/
def gutter : Bytes := bytes "    "

/-- The fewest cells that the source line gets. -/
def minRoom : Int := 8

/-- How hints are rendered. -/
structure Options where
  /-- The working directory, against which a link resolves relative paths. -/
  cwd : Bytes
  /-- What the hints are labelled with; nothing or a hyphen for standard input. -/
  path : Bytes
  /-- The width of the terminal; without a positive width nothing is cut. -/
  width : Int
  theme : Theme
  /-- Whether locations are links. -/
  links : Bool
  /-- How the source line is measured and cut. -/
  ruler : Ruler

/-- The label of the hints. -/
def Options.label (o : Options) : Bytes :=
  if o.path.isEmpty || o.path == bytes "-" then bytes "<stdin>" else o.path

/-- The cells for the source line; 0 when there is no limit. -/
def Options.room (o : Options) : Int :=
  if o.width ≤ 0 then 0 else max minRoom (o.width - gutter.length)

/-- The location and message of a hint. -/
def header (o : Options) (h : Hint) : Bytes :=
  let location :=
    o.label ++ bytes ":" ++ Integer.ofInt h.line ++ bytes ":" ++ Integer.ofInt h.column ++ bytes ":"
  let link := if o.links then Link.target o.cwd o.path else []
  Link.wrap link (o.theme.styles.location.render location) ++ bytes " " ++
    o.theme.styles.message.render h.message ++ [Bytes.lf]

/-- The parts of the source line around the marker of a hint; nothing when the marker ends before it
starts. No hint of a document is like that. -/
def sourceParts (o : Options) (source : Bytes) (h : Hint) : Option Fit.Parts :=
  Fit.parts o.ruler (Utf8.decode (Line.contentAt source h.line)) (Integer.wrap (h.column - 1)) h.width
    o.room

/-- The source line of a hint. -/
def sourceLine (styles : Styles) (p : Fit.Parts) : Bytes :=
  gutter ++ styles.source.render (Utf8.encode p.pre) ++ styles.marker.render (Utf8.encode p.marker) ++
    styles.source.render (Utf8.encode p.post) ++ [Bytes.lf]

/-- The carets of a hint, one for each byte of the marker. -/
def caretLine (ruler : Ruler) (styles : Styles) (p : Fit.Parts) : Bytes :=
  let carets := List.replicate (ruler.count p.pre) Bytes.space ++
    List.replicate (Utf8.encode p.marker).length 0x5E
  gutter ++ styles.caret.render carets ++ [Bytes.lf]

/-- One hint. -/
def hint (o : Options) (source : Bytes) (h : Hint) : Option Bytes :=
  (sourceParts o source h).map fun p =>
    header o h ++ sourceLine o.theme.styles p ++ caretLine o.ruler o.theme.styles p

/-- All hints on a source text. -/
def hints (o : Options) (source : Bytes) (hs : List Hint) : Option Bytes :=
  (hs.mapM (hint o source)).map List.flatten

/-- Why hints could not be written. -/
inductive Error where
  | noWriter
  | write (fault : Bytes)
  /-- The marker of a hint ends before it starts. -/
  | outOfRange
  deriving DecidableEq, Repr

/-- The words for an error. -/
def Error.message : Error → Bytes
  | .noWriter => bytes "render hints: writer is nil"
  | .write fault => fault
  | .outOfRange => bytes "slice bounds out of range"

/-- What a writer receives. A broken one fails only when there is something to write. -/
def toWriter (writer : Writer) (o : Options) (source : Bytes) (hs : List Hint) :
    Except Error Bytes :=
  match writer, hints o source hs with
  | .absent, _ => .error .noWriter
  | _, none => .error .outOfRange
  | .working, some text => .ok text
  | .broken fault, some text => if text.isEmpty then .ok text else .error (.write fault)

end Render

end EmphasisSpacing
