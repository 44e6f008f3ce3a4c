/-!
# Classes of code points

The questions that spacing asks about the neighbour of a marker. A code point is an integer, so that
the questions have an answer for values that encode no character too; for a character `c` the code
point is `c.toNat`.

**Two classes of CJK.** `isIdeograph` is the narrow one that drives formatting. `isProblematic` is the
wide one that hints use: ideographs, CJK punctuation, curly quotes, Hangul, and the full-width and
half-width forms.
-/

namespace EmphasisSpacing

namespace CodePoint

/-- Whether `r` lies in one of the closed ranges. -/
def inRanges (ranges : List (Int × Int)) (r : Int) : Bool :=
  ranges.any fun (lo, hi) => lo ≤ r && r ≤ hi

/-- A CJK unified ideograph of the basic block. -/
def isIdeograph (r : Int) : Bool := 0x4E00 ≤ r && r ≤ 0x9FFF

/-- An ASCII letter or digit. -/
def isAlnum (r : Int) : Bool :=
  (0x61 ≤ r && r ≤ 0x7A) || (0x41 ≤ r && r ≤ 0x5A) || (0x30 ≤ r && r ≤ 0x39)

/-- A space or a tab. -/
def isBlank (r : Int) : Bool := r == 0x20 || r == 0x09

/-- A control character that text does not hold: below the space and not a line feed, carriage
return, tab or form feed, or the delete character. -/
def isControl (r : Int) : Bool :=
  !(r == 0x0A || r == 0x0D || r == 0x09 || r == 0x0C) && (r < 0x20 || r == 0x7F)

/-- The Hangul script. -/
def hangulRanges : List (Int × Int) :=
  [(0x1100, 0x11FF), (0x302E, 0x302F), (0x3131, 0x318E), (0x3200, 0x321E), (0x3260, 0x327E),
    (0xA960, 0xA97C), (0xAC00, 0xD7A3), (0xD7B0, 0xD7C6), (0xD7CB, 0xD7FB), (0xFFA0, 0xFFBE),
    (0xFFC2, 0xFFC7), (0xFFCA, 0xFFCF), (0xFFD2, 0xFFD7), (0xFFDA, 0xFFDC)]

/-- A character of the Hangul script. -/
def isHangul (r : Int) : Bool := inRanges hangulRanges r

/-- The full-width and half-width forms of the block U+FF00 to U+FFEF. -/
def formRanges : List (Int × Int) :=
  [(0xFF01, 0xFFBE), (0xFFC2, 0xFFC7), (0xFFCA, 0xFFCF), (0xFFD2, 0xFFD7), (0xFFDA, 0xFFDC),
    (0xFFE0, 0xFFE6), (0xFFE8, 0xFFEE)]

/-- A full-width or half-width form. -/
def isWidthForm (r : Int) : Bool := inRanges formRanges r

/-- A character that a renderer is likely to misread next to a marker. -/
def isProblematic (r : Int) : Bool :=
  isIdeograph r || (0x3000 ≤ r && r ≤ 0x303F) || (0x2018 ≤ r && r ≤ 0x201F) || isHangul r ||
    isWidthForm r

/-- The punctuation among the problematic characters: just inside a marker it keeps the marker from
flanking when text follows directly outside. -/
def isBoundaryPunct (r : Int) : Bool := isProblematic r && !isIdeograph r && !isHangul r

/-- `acc`, a list of ranges above `r`, with `r` added: the first range grows when it starts right
after `r`. -/
def addBelow (r : Int) (acc : List (Int × Int)) : List (Int × Int) :=
  match acc with
  | (lo, hi) :: rest => if lo == r + 1 then (r, hi) :: rest else (r, r) :: (lo, hi) :: rest
  | [] => [(r, r)]

/-- Adds those of the `count` integers `last, last - 1, …` on which `p` holds to `acc`. -/
def runsDown (p : Int → Bool) : (count : Nat) → (last : Int) → (acc : List (Int × Int)) →
    List (Int × Int)
  | 0, _, acc => acc
  | n + 1, r, acc => runsDown p n (r - 1) (if p r then addBelow r acc else acc)

/-- The maximal closed ranges inside `first` to `last` on which `p` holds, in increasing order. -/
def rangesWhere (p : Int → Bool) (first last : Int) : List (Int × Int) :=
  runsDown p (last + 1 - first).toNat last []

end CodePoint

/-- The code point of a character. -/
def codeOf (c : Char) : Int := c.toNat

end EmphasisSpacing
