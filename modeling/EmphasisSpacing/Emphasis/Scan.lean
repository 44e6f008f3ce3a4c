import EmphasisSpacing.Settings
import EmphasisSpacing.Text.CodePoint
import EmphasisSpacing.Text.Utf8

/-!
# Scanning a line for markers

A line is a list of *pieces*: the maximal runs of stars and the characters between them. A run of one,
two or three stars is a marker; longer runs are plain text. One pass from left to right pairs the
markers with a stack: a marker closes the innermost open one when both have the same width, and opens a
span otherwise. What is still open at the end of the line is forgotten.

The three *stages* pair markers in the same way and differ in what they do at a marker.

* `trim` drops the blanks just inside a span. It keeps them where two runs of stars would fuse.
* `bold` looks at markers of width 2 and 3 only, and adds a space in front of an opening one and behind
  a closing one when the neighbour asks for it.
* `italic` does the same for markers of width 1.

Every machine writes its output backwards, so that the last character written is at hand.
-/

namespace EmphasisSpacing

/-- A run of stars, or a character that is none. -/
inductive Piece where
  | char (c : Char)
  | stars (n : Nat)
  deriving DecidableEq, Repr

/-- A passage of the formatter over the document. -/
inductive Stage where
  | trim
  | bold
  | italic
  deriving DecidableEq, Repr

namespace Scan

/-- The widest marker. -/
def maxWidth : Nat := 3

/-- A character put in front of a line of pieces: a star joins a run that starts the line. -/
def pushPiece (c : Char) (ps : List Piece) : List Piece :=
  if c == '*' then
    match ps with
    | .stars n :: rest => .stars (n + 1) :: rest
    | ps => .stars 1 :: ps
  else .char c :: ps

/-- The pieces of a line. -/
def pieces : List Char → List Piece
  | [] => []
  | c :: cs => pushPiece c (pieces cs)

/-- `n` stars in front of what was written before, backwards. -/
def putStars (n : Nat) (out : List Char) : List Char := List.replicate n '*' ++ out

/-- A space or a tab. -/
def isBlank (c : Char) : Bool := c == ' ' || c == '\t'

/-- Whether a marker of width `n` closes the innermost open one. -/
def closes (n : Nat) (frames : List Nat) : Bool := frames.head? == some n

/-! ### Trimming -/

/-- An open marker of the trimming machine. -/
structure OpenMarker where
  width : Nat
  /-- How many characters were written when the marker was. -/
  mark : Nat
  deriving DecidableEq, Repr

/-- The innermost open marker and the others, if a marker of width `n` closes it. -/
def closed? (n : Nat) : List OpenMarker → Option (OpenMarker × List OpenMarker)
  | [] => none
  | f :: frames => if f.width == n then some (f, frames) else none

/-- What was written, backwards, without the blanks at its end, but never less than `mark` characters;
all of it when a star would then come last. -/
def trimTo (mark : Nat) (out : List Char) : List Char :=
  let room := out.length - mark
  let kept := (out.take room).dropWhile isBlank ++ out.drop room
  if kept.head? == some '*' then out else kept

/-- Whether the blanks in front of `ps` may be dropped after an opening marker: the first piece other
than a blank is no run of stars. -/
def dropsBlanks : List Piece → Bool
  | [] => true
  | .char c :: ps => if isBlank c then dropsBlanks ps else true
  | .stars _ :: _ => false

/-- The trimming machine. `dropping` tells that blanks are being dropped behind an opening marker. -/
def trimFrom : (dropping : Bool) → (frames : List OpenMarker) → (out : List Char) → List Piece → List Char
  | _, _, out, [] => out
  | dropping, frames, out, .char c :: ps =>
    if dropping && isBlank c then trimFrom true frames out ps
    else trimFrom false frames (c :: out) ps
  | _, frames, out, .stars n :: ps =>
    if maxWidth < n then trimFrom false frames (putStars n out) ps
    else
      match closed? n frames with
      | some (f, rest) => trimFrom false rest (putStars n (trimTo f.mark out)) ps
      | none =>
        let written := putStars n out
        trimFrom (dropsBlanks ps) (⟨n, written.length⟩ :: frames) written ps

/-! ### Spacing -/

/-- Whether bold spans keep a space to the neighbour with code point `r`. -/
def boldSpace (settings : Settings) (r : Int) : Bool :=
  if CodePoint.isIdeograph r then settings.spaceCjkBold
  else if CodePoint.isAlnum r then settings.spaceAsciiBold
  else false

/-- Whether italic spans keep a space to the neighbour with code point `r`. -/
def italicSpace (r : Int) : Bool := CodePoint.isIdeograph r

/-- The character at the front of a line of pieces. -/
def frontChar? : List Piece → Option Char
  | [] => none
  | .char c :: _ => some c
  | .stars _ :: _ => some '*'

/-- Whether there is a neighbour and it asks for a space. -/
def asks (wants : Int → Bool) (neighbour : Option Char) : Bool :=
  match neighbour with
  | some c => wants (codeOf c)
  | none => false

/-- A space in front of what was written before, if one is wanted. -/
def putSpace (wanted : Bool) (out : List Char) : List Char := if wanted then ' ' :: out else out

/-- The spacing machine for the markers whose width satisfies `takes`. Other runs are copied. -/
def spaceFrom (takes : Nat → Bool) (wants : Int → Bool) :
    (frames : List Nat) → (out : List Char) → List Piece → List Char
  | _, out, [] => out
  | frames, out, .char c :: ps => spaceFrom takes wants frames (c :: out) ps
  | frames, out, .stars n :: ps =>
    if maxWidth < n || !takes n then spaceFrom takes wants frames (putStars n out) ps
    else if closes n frames then
      spaceFrom takes wants frames.tail
        (putSpace (asks wants (frontChar? ps)) (putStars n out)) ps
    else
      spaceFrom takes wants (n :: frames)
        (putStars n (putSpace (asks wants out.head?) out)) ps

/-! ### Stages -/

/-- One stage on the characters of a line. -/
def chars (stage : Stage) (settings : Settings) (line : List Char) : List Char :=
  let ps := pieces line
  let out :=
    match stage with
    | .trim => trimFrom false [] [] ps
    | .bold => spaceFrom (2 ≤ ·) (boldSpace settings) [] [] ps
    | .italic => spaceFrom (· == 1) italicSpace [] [] ps
  out.reverse

/-- One stage on a line of bytes. A line that the stage leaves alone keeps its bytes, well formed or
not. -/
def line (stage : Stage) (settings : Settings) (s : Bytes) : Bytes :=
  let before := Utf8.decode s
  let after := chars stage settings before
  if after == before then s else Utf8.encode after

end Scan

end EmphasisSpacing
