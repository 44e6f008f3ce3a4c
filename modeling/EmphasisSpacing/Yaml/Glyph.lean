import EmphasisSpacing.Text.Utf8

/-!
# Placed characters

YAML is a format in which columns count. A text is therefore read as a list of characters, each with its
line and column, and every function that follows is a recursion on such a list.

All ways to end a line but two become a line feed. The line and paragraph separators stay what they
are, because they survive in the value of a scalar.
-/

namespace EmphasisSpacing

namespace Yaml

/-- A character with its place in the text; all numbers count from 0. -/
structure Glyph where
  char : Char
  index : Nat
  line : Nat
  column : Nat
  deriving DecidableEq, Repr

/-- Whether a character ends a line. -/
def isBreak (c : Char) : Bool := c == '\n' || c.toNat == 0x2028 || c.toNat == 0x2029

/-- A space or a tab. -/
def isBlank (c : Char) : Bool := c == ' ' || c == '\t'

/-- Whether a document may hold a character at all. -/
def isAllowed (c : Char) : Bool :=
  let n := c.toNat
  n == 0x09 || n == 0x0A || n == 0x0D || (0x20 ≤ n && n ≤ 0x7E) || n == 0x85 ||
    (0xA0 ≤ n && n ≤ 0xD7FF) || (0xE000 ≤ n && n ≤ 0xFFFD) || 0x10000 ≤ n

/-- The characters of a text with line feeds for carriage returns, both together, and next lines. -/
def unifyBreaks : List Char → List Char
  | '\r' :: '\n' :: cs => '\n' :: unifyBreaks cs
  | c :: cs => (if c == '\r' || c.toNat == 0x85 then '\n' else c) :: unifyBreaks cs
  | [] => []

/-- Characters with their places, from a given place on. -/
def placeFrom : (index line column : Nat) → List Char → List Glyph
  | _, _, _, [] => []
  | index, line, column, c :: cs =>
    ⟨c, index, line, column⟩ ::
      (if isBreak c then placeFrom (index + 1) (line + 1) 0 cs
        else placeFrom (index + 1) line (column + 1) cs)

/-- The character that may stand in front of a text to tell its encoding. -/
def byteOrderMark : Char := Char.ofNat 0xFEFF

/-- The placed characters of a text; nothing when it is ill formed or holds a character that it must
not hold. -/
def glyphs? (s : Bytes) : Option (List Glyph) :=
  if !Utf8.isValid s then none
  else
    let cs := Utf8.decode s
    let cs := if cs.head? == some byteOrderMark then cs.drop 1 else cs
    if cs.all isAllowed then some (placeFrom 0 0 0 (unifyBreaks cs)) else none

/-- Whether a text is at its end, at the end of a line, or at a blank. -/
def atGap : List Glyph → Bool
  | [] => true
  | g :: _ => isBlank g.char || isBreak g.char

/-- Whether a text is at its end or at the end of a line. -/
def atLineEnd : List Glyph → Bool
  | [] => true
  | g :: _ => isBreak g.char

/-- The column of the next character. -/
def columnOf : List Glyph → Nat
  | [] => 0
  | g :: _ => g.column

/-- Whether a text is at a line that starts with three times `c` and then a gap. -/
def atTriple (c : Char) : List Glyph → Bool
  | g :: h :: i :: rest =>
    g.column == 0 && g.char == c && h.char == c && i.char == c && atGap rest
  | _ => false

/-- Whether a text is at a mark that starts or ends a document. -/
def atDocumentMark (gs : List Glyph) : Bool := atTriple '-' gs || atTriple '.' gs

end Yaml

end EmphasisSpacing
