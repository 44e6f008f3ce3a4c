import EmphasisSpacing.Text.Cells
import EmphasisSpacing.Text.Integer

/-!
# Fitting a line into a terminal

A source line is shown around a marker: what is before it, the marker, and what is after it. When the
line is too wide, both sides are cut so that the marker stays visible: what is before it may take two
thirds of the cells, and what is after it the rest. Cuts are marked with an ellipsis, on the left for the
first part and on the right for the last.
-/

namespace EmphasisSpacing

namespace Fit

/-- Characters with every tab replaced by four spaces. -/
def expandTabs (cs : List Char) : List Char :=
  cs.flatMap fun c => if c == '\t' then [' ', ' ', ' ', ' '] else [c]

/-- Bytes with every tab replaced by four spaces. -/
def expandTabBytes (s : Bytes) : Bytes :=
  s.flatMap fun b => if b == Bytes.tab then List.replicate 4 Bytes.space else [b]

variable (ruler : Ruler)

/-- The longest end of `cs` all of whose ends take at most `limit` cells, and whether that is `cs`
itself. -/
def keepRightFrom (limit : Int) : List Char → List Char × Bool
  | [] => ([], true)
  | c :: cs =>
    let (kept, whole) := keepRightFrom limit cs
    if whole && ruler.count (c :: cs) ≤ limit then (c :: cs, true) else (kept, false)

/-- The longest end of `cs` that fits in `limit` cells. -/
def keepRight (limit : Int) (cs : List Char) : List Char := (keepRightFrom ruler limit cs).1

/-- `cs` cut to `limit` cells with an ellipsis for what is left out; empty when there is no room. -/
def shorten (limit : Int) (cs : List Char) : List Char :=
  if ruler.count cs ≤ limit then cs
  else if limit ≤ 0 then []
  else if limit == 1 then [Cells.ellipsis]
  else ruler.truncate limit.toNat cs

/-- A text cut to `limit` cells. A text that fits keeps its bytes. -/
def shortenText (limit : Int) (s : Bytes) : Bytes :=
  let cs := Utf8.decode s
  if ruler.count cs ≤ limit then s else Utf8.encode (shorten ruler limit cs)

/-- A line around a marker. -/
structure Parts where
  pre : List Char
  marker : List Char
  post : List Char
  deriving DecidableEq, Repr

/-- A line cut in three at column `column`, which is brought into the line first, and `width` characters
further on. Tabs outside the marker become spaces. The second cut is at a sum of 64-bit numbers: when
that is in front of the first cut, there is no marker to take, and nothing is returned. -/
def split (line : List Char) (column width : Int) : Option Parts :=
  let start := max 0 (min column line.length)
  let stop := min (Integer.wrap (start + width)) line.length
  if stop < start then none
  else
    let marker := (line.take stop.toNat).drop start.toNat
    some ⟨expandTabs (line.take start.toNat), marker, expandTabs (line.drop stop.toNat)⟩

/-- The cells that the part before the marker may take: two thirds of `limit`, in 64-bit
arithmetic. -/
def preRoom (limit : Int) : Int := (Integer.wrap (limit * 2)).tdiv 3

/-- The part before the marker cut to its room. -/
def fitPre (limit : Int) (pre : List Char) : List Char :=
  if preRoom limit < ruler.count pre then Cells.ellipsis :: keepRight ruler (preRoom limit - 1) pre
  else pre

/-- Parts cut to `limit` cells; without a positive limit nothing is cut. -/
def cut (limit : Int) (p : Parts) : Parts :=
  if limit ≤ 0 then p
  else
    let pre := fitPre ruler limit p.pre
    let room := limit - ruler.count pre - ruler.count p.marker
    ⟨pre, p.marker, shorten ruler room p.post⟩

/-- The parts of a line cut to `limit` cells; nothing when the line has no marker to take. -/
def parts (line : List Char) (column width limit : Int) : Option Parts :=
  (split line column width).map (cut ruler limit)

end Fit

end EmphasisSpacing
