import EmphasisSpacing.Emphasis.Format

/-!
# Hints

A hint points at a marker that a renderer is likely to misread, because of the character just outside
the span. Hints never change the document.

On every line that formatting would scan, the markers of the protected line are paired as in
`EmphasisSpacing.Emphasis.Scan`; each pair gives at most a hint *before* its opening marker and one
*after* its closing marker. Positions count in the line as it was written, so the tokens of the
protected line are measured by the regions that they stand for.
-/

namespace EmphasisSpacing

/-! ### The type of hints -/

/-- The end of a span that a hint speaks of. -/
inductive Side where
  | before
  | after
  | unknown
  deriving DecidableEq, Repr

/-- The name of a side. -/
def Side.name : Side → String
  | .before => "before"
  | .after => "after"
  | .unknown => "unknown"

/-- A stretch of a document between two byte offsets. -/
structure Stretch where
  start : Int
  stop : Int
  deriving DecidableEq, Repr

namespace Stretch

/-- The stretch between two offsets in any order. -/
def between (a b : Int) : Stretch := if b < a then ⟨b, a⟩ else ⟨a, b⟩

/-- Whether two stretches overlap; touching counts. -/
def overlaps (s t : Stretch) : Bool := s.start ≤ t.stop && t.start ≤ s.stop

end Stretch

/-- A marker that sits against a problematic character. -/
structure Hint where
  /-- The line, counted from 1. -/
  line : Int
  /-- The column of the marker, counted in characters from 1. -/
  column : Int
  /-- The byte offset of the marker in the document. -/
  offset : Int
  side : Side
  /-- The number of stars of the marker. -/
  width : Nat
  /-- The whole span, markers included. -/
  span : Stretch
  deriving DecidableEq, Repr

/-- What a hint asks for. -/
def Hint.message (h : Hint) : Bytes :=
  let lead := match h.side with
    | .before => bytes "add a space before "
    | _ => bytes "add a space after "
  lead ++ List.replicate h.width Bytes.star

namespace Hint

/-! ### Positions in the line as written -/

/-- A place in a line: bytes and characters before it. -/
structure Place where
  offset : Nat
  column : Nat
  deriving DecidableEq, Repr

/-- The place behind one more character. -/
def Place.afterChar (p : Place) (c : Char) : Place :=
  ⟨p.offset + (Utf8.encodeChar c).length, p.column + 1⟩

/-- The place behind one more region. -/
def Place.afterText (p : Place) (s : Bytes) : Place :=
  ⟨p.offset + s.length, p.column + (Utf8.decode s).length⟩

/-- The value of a token read so far, with one more digit. -/
def pushDigit (n : Nat) (c : Char) : Nat := n * 10 + (c.toNat - '0'.toNat)

/-- The place in the written line of every character of the protected line, and of its end. All
characters of a token have the place where its region starts. `reading` holds the number of the token
that is being read. -/
def placesFrom (regions : List Bytes) :
    (reading : Option Nat) → Place → List Char → List (Char × Place) × Place
  | none, p, [] => ([], p)
  | some n, p, [] => ([], p.afterText ((Protected.expand? regions n).getD []))
  | none, p, c :: cs =>
    let (rest, stop) :=
      if c.toNat == 0 then placesFrom regions (some 0) p cs
      else placesFrom regions none (p.afterChar c) cs
    ((c, p) :: rest, stop)
  | some n, p, c :: cs =>
    let (rest, stop) :=
      if c.toNat == 0 then
        placesFrom regions none (p.afterText ((Protected.expand? regions n).getD [])) cs
      else placesFrom regions (some (pushDigit n c)) p cs
    ((c, p) :: rest, stop)

/-! ### Markers and pairs -/

/-- A run of stars of a protected line, with its neighbours and its places in the written line. -/
structure Mark where
  width : Nat
  before : Option Char
  after : Option Char
  start : Place
  stop : Place
  deriving DecidableEq, Repr

/-- The runs of stars of a line of placed characters that ends at `stop`, where `before` is the
character in front of it. -/
def marksFrom (stop : Place) : (before : Option Char) → List (Char × Place) → List Mark
  | _, [] => []
  | before, (c, p) :: rest =>
    let later := marksFrom stop (some c) rest
    if c == '*' then
      match rest, later with
      | [], _ => [⟨1, before, none, p, stop⟩]
      | (d, q) :: _, later =>
        if d == '*' then
          match later with
          | m :: ms => { m with width := m.width + 1, before := before, start := p } :: ms
          | [] => []
        else ⟨1, before, some d, p, q⟩ :: later
    else later

/-- The markers among the runs of stars of a protected line. -/
def marks (p : Protected) : List Mark :=
  let (placed, stop) := placesFrom p.regions none ⟨0, 0⟩ (Utf8.decode p.text)
  (marksFrom stop none placed).filter (·.width ≤ Scan.maxWidth)

/-- The pairs of opening and closing markers, by closing marker. `frames` are the open ones, innermost
first. -/
def pairsFrom : (frames : List Mark) → List Mark → List (Mark × Mark)
  | _, [] => []
  | [], m :: ms => pairsFrom [m] ms
  | f :: frames, m :: ms =>
    if f.width == m.width then (f, m) :: pairsFrom frames ms
    else pairsFrom (m :: f :: frames) ms

/-! ### From pairs to hints -/

/-- Whether a marker needs a hint, given the characters just outside and just inside its span. -/
def isNeeded (outside inside : Option Char) : Bool :=
  match outside with
  | none => false
  | some c =>
    if CodePoint.isBlank (codeOf c) || c.toNat == 0 then false
    else CodePoint.isProblematic (codeOf c) ||
      inside.any fun d => CodePoint.isBoundaryPunct (codeOf d)

/-- The hints for one pair on line `number`, which starts at byte `base`. -/
def ofPair (number base : Nat) (pair : Mark × Mark) : List Hint :=
  let (opener, closer) := pair
  let span : Stretch := ⟨(base + opener.start.offset : Nat), (base + closer.stop.offset : Nat)⟩
  let at' (m : Mark) (side : Side) : Hint :=
    { line := number, column := (m.start.column + 1 : Nat), offset := (base + m.start.offset : Nat)
      side := side, width := m.width, span := span }
  (if isNeeded opener.before opener.after then [at' opener .before] else []) ++
    (if isNeeded closer.after closer.before then [at' closer .after] else [])

/-- The hints on a line that is open and worth scanning. -/
def ofLine (settings : Settings) (number base : Nat) (line : Bytes) : List Hint :=
  (pairsFrom [] (marks (Protected.ofLine settings line))).flatMap (ofPair number base)

/-- The hints on the lines behind the front matter: the first has the given number, starts at byte
`base` and lies in the given block. -/
def ofLines (settings : Settings) :
    Block.State → (number base : Nat) → List Line → List Hint
  | _, _, _, [] => []
  | state, number, base, l :: ls =>
    let (state, isOpen) := Block.step settings state l.content
    let here := if isOpen && needsScan l.content then ofLine settings number base l.content else []
    here ++ ofLines settings state (number + 1) (base + l.bytes.length) ls

/-- All hints of a document, line by line. -/
def ofDocument (settings : Settings) (text : Bytes) : List Hint :=
  let lines := Line.split text
  let skipped := if settings.skipFrontMatter then FrontMatter.lineCount lines else 0
  ofLines settings .text (skipped + 1) (Line.join (lines.take skipped)).length (lines.drop skipped)

/-- The hints of a document whose span overlaps none of the selections. -/
def select (selections : List Stretch) (hints : List Hint) : List Hint :=
  hints.filter fun h => !selections.any h.span.overlaps

end Hint

/-- The hints of a document, but for those whose span overlaps a selection. -/
def hints (settings : Settings) (selections : List Stretch) (text : Bytes) : List Hint :=
  Hint.select selections (Hint.ofDocument settings text)

end EmphasisSpacing
