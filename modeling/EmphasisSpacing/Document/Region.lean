import EmphasisSpacing.Settings
import EmphasisSpacing.Text.Integer

/-!
# Regions of a line that are left alone

Inline code, inline math and the star of a bullet hold characters that look like markers and are none.
Before a line is scanned, each such *region* is replaced by a *token*, and afterwards each token by its
region. A token is the region's number between two NUL bytes; a line that holds a NUL is never scanned.

**Order.** The bullet comes first, then the code spans of the line, then the math spans of what is then
there, each from left to right. So a math region may hold the tokens of code regions, never the other
way round, and undoing the replacements from the newest to the oldest meets every token.

**Digits between regions.** Undoing replaces the first occurrence of a token. A digit that stands
between two regions can form a token with the NULs around it, and then the wrong place is replaced. The
functions say exactly what happens then.
-/

namespace EmphasisSpacing

/-- A half-open range of positions in a byte string. -/
structure Range where
  start : Nat
  stop : Nat
  deriving DecidableEq, Repr

/-! ### Delimited spans -/

/-- The spans from one `delim` to the next, with at least one byte between them, in the text `s` that
starts at position `i`. `opening` is the position of an opening delimiter that was met, and `dead` tells
that a delimiter here does not count, because the byte before it is `escape`.

A delimiter right after an opening one takes its place, so spans are never empty. -/
def delimitedFrom (delim : UInt8) (escape : Option UInt8) :
    (i : Nat) → (opening : Option Nat) → (dead : Bool) → (s : Bytes) → List Range
  | _, _, _, [] => []
  | i, opening, dead, b :: s =>
    if b == delim && !dead then
      match opening with
      | none => delimitedFrom delim escape (i + 1) (some i) false s
      | some o =>
        if i == o + 1 then delimitedFrom delim escape (i + 1) (some i) false s
        else ⟨o, i + 1⟩ :: delimitedFrom delim escape (i + 1) none false s
    else delimitedFrom delim escape (i + 1) opening (escape == some b) s

/-- The inline code of a line, grave accents included. -/
def codeSpans (s : Bytes) : List Range := delimitedFrom Bytes.grave none 0 none false s

/-- The inline math of a line, dollar signs included. A dollar sign right after a backslash is
literal. -/
def mathSpans (s : Bytes) : List Range :=
  delimitedFrom Bytes.dollar (some Bytes.backslash) 0 none false s

/-- `s`, which starts at position `i`, without the bytes in the given ranges. The ranges are disjoint
and in increasing order. -/
def dropRanges : (i : Nat) → List Range → (s : Bytes) → Bytes
  | _, [], s => s
  | i, r :: rs, s => s.take (r.start - i) ++ dropRanges r.stop rs (s.drop (r.stop - i))

/-! ### Bullets -/

/-- The number of star runs of length 1, where `run` stars were read just before. -/
def loneStarsFrom : (run : Nat) → Bytes → Nat
  | run, [] => if run == 1 then 1 else 0
  | run, b :: s =>
    if b == Bytes.star then loneStarsFrom (run + 1) s
    else (if run == 1 then 1 else 0) + loneStarsFrom 0 s

/-- The number of stars that stand alone. -/
def loneStars (s : Bytes) : Nat := loneStarsFrom 0 s

/-- `s` without the blanks at its end. -/
def trimBlanksRight (s : Bytes) : Bytes := (s.reverse.dropWhile Bytes.isBlank).reverse

/-- Whether a text, read backwards, starts with a star that a blank follows. -/
def endsWithPaddedStar (reversed : Bytes) : Bool :=
  match reversed with
  | a :: b :: _ => a == Bytes.star && Bytes.isBlank b
  | _ => false

/-- Whether the text after a leading star reads as an italic span with padding rather than as the item
of a list: two blanks follow the star, and the line ends with a lone star after a blank that closes the
span. Stars in code and math do not count. -/
def wrapsInItalics (rest : Bytes) : Bool :=
  match rest with
  | _ :: b :: _ =>
    if Bytes.isBlank b then
      let plain := dropRanges 0 (codeSpans rest) rest
      let plain := dropRanges 0 (mathSpans plain) plain
      let plain := trimBlanksRight plain
      endsWithPaddedStar plain.reverse && loneStars plain % 2 == 1
    else false
  | _ => false

/-- The length of a bullet at the start of a line, from the start of the line to the star; 0 when there
is none. -/
def bulletLength (line : Bytes) : Nat :=
  let indent := (line.takeWhile Bytes.isBlank).length
  match line.drop indent with
  | a :: b :: rest =>
    if a == Bytes.star && Bytes.isBlank b && !wrapsInItalics (b :: rest) then indent + 1 else 0
  | _ => 0

/-! ### Tokens -/

/-- The byte that delimits tokens. -/
def tokenMark : UInt8 := 0

/-- The token that stands for region `i`. -/
def token (i : Nat) : Bytes := tokenMark :: Integer.ofNat i ++ [tokenMark]

/-- A line whose regions are replaced by tokens. -/
structure Protected where
  /-- The line with tokens. -/
  text : Bytes
  /-- The text that each token stands for, which may hold earlier tokens. -/
  regions : List Bytes
  deriving DecidableEq, Repr

namespace Protected

/-- Replaces the ranges of `s`, which starts at position `i`, by tokens numbered from `n`. Gives the new
text and what was replaced. -/
def replaceRanges : (n i : Nat) → List Range → (s : Bytes) → Bytes × List Bytes
  | _, _, [], s => (s, [])
  | n, i, r :: rs, s =>
    let (text, regions) := replaceRanges (n + 1) r.stop rs (s.drop (r.stop - i))
    (s.take (r.start - i) ++ token n ++ text,
      (s.drop (r.start - i)).take (r.stop - r.start) :: regions)

/-- Replaces further ranges of the text. -/
def extend (p : Protected) (find : Bytes → List Range) : Protected :=
  let (text, regions) := replaceRanges p.regions.length 0 (find p.text) p.text
  ⟨text, p.regions ++ regions⟩

/-- A line with its bullet replaced. -/
def ofBullet (line : Bytes) : Protected :=
  match bulletLength line with
  | 0 => ⟨line, []⟩
  | n => ⟨token 0 ++ line.drop n, [line.take n]⟩

/-- A line with all its regions replaced. -/
def ofLine (settings : Settings) (line : Bytes) : Protected :=
  let p := ofBullet line
  let p := if settings.skipInlineCode then p.extend codeSpans else p
  p.extend mathSpans

/-- Puts regions back into `text`, newest first; the regions are given newest first. -/
def restoreFrom : (newestFirst : List Bytes) → (text : Bytes) → Bytes
  | [], text => text
  | r :: rs, text => restoreFrom rs (Bytes.replaceFirst (token rs.length) r text)

/-- `text` with the tokens of the regions replaced by the regions. -/
def restore (regions : List Bytes) (text : Bytes) : Bytes := restoreFrom regions.reverse text

/-- The full text of region `i`, the tokens in it replaced too; nothing when there is no such
region. -/
def expand? (regions : List Bytes) (i : Nat) : Option Bytes :=
  regions[i]?.map (restore (regions.take i))

end Protected

end EmphasisSpacing
