import EmphasisSpacing.Text.Bytes

/-!
# UTF-8

Decoding is total: a byte that starts no well-formed sequence stands for the replacement character,
takes one byte, and decoding goes on with the next byte. `Utf8.units` keeps such bytes apart (`none`)
from a replacement character that is really there; `Utf8.decode` forgets the difference.

Well-formed means what the standard says: no overlong form, no surrogate, nothing above U+10FFFF.

**Shape of the loop.** A character takes up to four bytes, so the loop over the bytes carries the
number of bytes that the current character still covers. That keeps the recursion on the list itself.
-/

namespace EmphasisSpacing

namespace Utf8

/-- The character shown for a byte that starts no well-formed sequence. -/
def replacement : Char := '�'

/-- A continuation byte. -/
def isCont (b : UInt8) : Bool := 0x80 ≤ b && b ≤ 0xBF

/-- The six payload bits of a continuation byte. -/
def payload (b : UInt8) : Nat := b.toNat % 64

/-- Whether a three-byte sequence may go on with `b` after `lead`: this shuts out overlong forms
and surrogates. -/
def second3 (lead b : UInt8) : Bool :=
  if lead == 0xE0 then 0xA0 ≤ b && b ≤ 0xBF
  else if lead == 0xED then 0x80 ≤ b && b ≤ 0x9F
  else isCont b

/-- Whether a four-byte sequence may go on with `b` after `lead`: this shuts out overlong forms and
what lies above U+10FFFF. -/
def second4 (lead b : UInt8) : Bool :=
  if lead == 0xF0 then 0x90 ≤ b && b ≤ 0xBF
  else if lead == 0xF4 then 0x80 ≤ b && b ≤ 0x8F
  else isCont b

/-- The character at the front of `b :: rest` and how many bytes of `rest` it covers; nothing when
`b` starts no well-formed sequence. -/
def first? (b : UInt8) (rest : Bytes) : Option (Char × Nat) :=
  if b < 0x80 then some (Char.ofNat b.toNat, 0)
  else if 0xC2 ≤ b && b ≤ 0xDF then
    match rest with
    | b₁ :: _ =>
      if isCont b₁ then some (Char.ofNat (b.toNat % 32 * 64 + payload b₁), 1) else none
    | _ => none
  else if 0xE0 ≤ b && b ≤ 0xEF then
    match rest with
    | b₁ :: b₂ :: _ =>
      if second3 b b₁ && isCont b₂ then
        some (Char.ofNat ((b.toNat % 16 * 64 + payload b₁) * 64 + payload b₂), 2)
      else none
    | _ => none
  else if 0xF0 ≤ b && b ≤ 0xF4 then
    match rest with
    | b₁ :: b₂ :: b₃ :: _ =>
      if second4 b b₁ && isCont b₂ && isCont b₃ then
        some (Char.ofNat
          (((b.toNat % 8 * 64 + payload b₁) * 64 + payload b₂) * 64 + payload b₃), 3)
      else none
    | _ => none
  else none

/-- `unitsFrom k s` decodes `s` after dropping the `k` bytes that the character before it covers. -/
def unitsFrom : Nat → Bytes → List (Option Char)
  | _, [] => []
  | k + 1, _ :: s => unitsFrom k s
  | 0, b :: s =>
    match first? b s with
    | some (c, more) => some c :: unitsFrom more s
    | none => none :: unitsFrom 0 s

/-- The characters of `s` in order, with `none` for every byte that starts no well-formed
sequence. -/
def units (s : Bytes) : List (Option Char) := unitsFrom 0 s

/-- The characters of `s`, with the replacement character for ill-formed bytes. -/
def decode (s : Bytes) : List Char := (units s).map (·.getD replacement)

/-- Whether `s` is well-formed UTF-8. -/
def isValid (s : Bytes) : Bool := (units s).all Option.isSome

/-- The bytes of one character. -/
def encodeChar (c : Char) : Bytes :=
  let n := c.toNat
  if n < 0x80 then [UInt8.ofNat n]
  else if n < 0x800 then [UInt8.ofNat (0xC0 + n / 64), UInt8.ofNat (0x80 + n % 64)]
  else if n < 0x10000 then
    [UInt8.ofNat (0xE0 + n / 4096), UInt8.ofNat (0x80 + n / 64 % 64), UInt8.ofNat (0x80 + n % 64)]
  else
    [UInt8.ofNat (0xF0 + n / 262144), UInt8.ofNat (0x80 + n / 4096 % 64),
      UInt8.ofNat (0x80 + n / 64 % 64), UInt8.ofNat (0x80 + n % 64)]

/-- The UTF-8 form of a list of characters. -/
def encode (cs : List Char) : Bytes := cs.flatMap encodeChar

end Utf8

/-- The bytes of a string: how messages and other fixed texts are written down. -/
def bytes (s : String) : Bytes := Utf8.encode s.toList

end EmphasisSpacing
