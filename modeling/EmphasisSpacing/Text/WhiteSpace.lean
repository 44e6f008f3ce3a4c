import EmphasisSpacing.Text.Utf8

/-!
# White space at the ends of a text

`trim` strips the characters with the Unicode property White_Space from both ends. It works on bytes,
because the text need not be well formed: ill-formed bytes are no white space, so they stop it.

Every white space character has its own first byte sequence, and no such sequence ends inside
another character, so the right end can be stripped by reading the bytes backwards.
-/

namespace EmphasisSpacing

namespace WhiteSpace

/-- White space among the ASCII bytes. -/
def isAscii (b : UInt8) : Bool := b == 0x20 || (0x09 ≤ b && b ≤ 0x0D)

/-- Whether the bytes `0xE2, b₁, b₂` encode white space: U+2000 to U+200A, U+2028, U+2029, U+202F
and U+205F. -/
def isGeneral (b₁ b₂ : UInt8) : Bool :=
  (b₁ == 0x80 && ((0x80 ≤ b₂ && b₂ ≤ 0x8A) || b₂ == 0xA8 || b₂ == 0xA9 || b₂ == 0xAF)) ||
    (b₁ == 0x81 && b₂ == 0x9F)

/-- How many bytes of `b :: rest` the white space character at its front takes; 0 when there is
none. -/
def frontWidth (b : UInt8) (rest : Bytes) : Nat :=
  if isAscii b then 1
  else match b, rest with
    | 0xC2, b₁ :: _ => if b₁ == 0x85 || b₁ == 0xA0 then 2 else 0
    | 0xE1, b₁ :: b₂ :: _ => if b₁ == 0x9A && b₂ == 0x80 then 3 else 0
    | 0xE2, b₁ :: b₂ :: _ => if isGeneral b₁ b₂ then 3 else 0
    | 0xE3, b₁ :: b₂ :: _ => if b₁ == 0x80 && b₂ == 0x80 then 3 else 0
    | _, _ => 0

/-- How many bytes the white space character at the end takes, for a text that ends with the bytes
of `b :: before` read backwards; 0 when there is none. -/
def backWidth (b : UInt8) (before : Bytes) : Nat :=
  if isAscii b then 1
  else match before with
    | 0xC2 :: _ => if b == 0x85 || b == 0xA0 then 2 else 0
    | b₁ :: 0xE1 :: _ => if b₁ == 0x9A && b == 0x80 then 3 else 0
    | b₁ :: 0xE2 :: _ => if isGeneral b₁ b then 3 else 0
    | b₁ :: 0xE3 :: _ => if b₁ == 0x80 && b == 0x80 then 3 else 0
    | _ => 0

/-- Drops `k` bytes, and then characters as long as `width` finds one. -/
def dropFrom (width : UInt8 → Bytes → Nat) : Nat → Bytes → Bytes
  | _, [] => []
  | k + 1, _ :: s => dropFrom width k s
  | 0, b :: s =>
    match width b s with
    | 0 => b :: s
    | k + 1 => dropFrom width k s

/-- `s` without the white space at its start. -/
def trimLeft (s : Bytes) : Bytes := dropFrom frontWidth 0 s

/-- `s` without the white space at its end. -/
def trimRight (s : Bytes) : Bytes := (dropFrom backWidth 0 s.reverse).reverse

/-- `s` without the white space at both ends. -/
def trim (s : Bytes) : Bytes := trimRight (trimLeft s)

end WhiteSpace

end EmphasisSpacing
