import EmphasisSpacing.Document.Block
import EmphasisSpacing.Document.FrontMatter
import EmphasisSpacing.Document.Region
import EmphasisSpacing.Emphasis.Scan

/-!
# Formatting a document

The stages that the settings turn on run one after the other, each over the whole document: front
matter and blocks are found anew for every stage, in the text that the stage before has left.

A stage changes a line when the line is open (outside front matter and blocks, and no thematic break)
and worth scanning (`needsScan`). All other lines, and all terminators, are copied byte for byte.
-/

namespace EmphasisSpacing

/-- Whether a line holds a marker and can be scanned: it is well formed and free of the byte that marks
tokens. -/
def needsScan (line : Bytes) : Bool :=
  line.contains Bytes.star && !line.contains tokenMark && Utf8.isValid line

namespace Stage

/-- Whether the settings turn a stage on. -/
def enabled (settings : Settings) : Stage → Bool
  | .trim => settings.trimInside
  | .bold => settings.spacesBold
  | .italic => settings.spaceCjkItalic

/-- The stages in the order in which they run. -/
def all : List Stage := [.trim, .bold, .italic]

/-- One stage on one line: protect its regions, scan, and put the regions back. -/
def onLine (stage : Stage) (settings : Settings) (line : Bytes) : Bytes :=
  let p := Protected.ofLine settings line
  let scanned := Scan.line stage settings p.text
  if scanned == p.text then line else Protected.restore p.regions scanned

/-- One stage on the lines behind the front matter, the first of which lies in the given block. -/
def onLines (stage : Stage) (settings : Settings) : Block.State → List Line → List Line
  | _, [] => []
  | state, l :: ls =>
    let (state, isOpen) := Block.step settings state l.content
    let content :=
      if isOpen && needsScan l.content then stage.onLine settings l.content else l.content
    ⟨content, l.ending⟩ :: onLines stage settings state ls

/-- One stage on a document. -/
def onDocument (stage : Stage) (settings : Settings) (text : Bytes) : Bytes :=
  let lines := Line.split text
  let skipped := if settings.skipFrontMatter then FrontMatter.lineCount lines else 0
  Line.join (lines.take skipped ++ stage.onLines settings .text (lines.drop skipped))

end Stage

/-- The formatted document: every stage that is turned on, in order. -/
def format (settings : Settings) (text : Bytes) : Bytes :=
  (Stage.all.filter (Stage.enabled settings)).foldl (fun t stage => stage.onDocument settings t) text

end EmphasisSpacing
