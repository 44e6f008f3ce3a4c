import EmphasisSpacing.Text.Printable
import EmphasisSpacing.Text.Utf8

/-!
# Quoted text

How a message shows a text that may hold anything: between quotes, with escapes for the quote, the
backslash and everything that is not printable. A byte that is part of no character is shown in
hexadecimal too, so the quoted form is always well-formed UTF-8.
-/

namespace EmphasisSpacing

namespace Quoted

/-- The byte of a hexadecimal digit, in lower case. -/
def hexDigit (d : Nat) : UInt8 := UInt8.ofNat (if d < 10 then 0x30 + d else 0x57 + d)

/-- The last `k` hexadecimal digits of `n`. -/
def hex : (k n : Nat) → Bytes
  | 0, _ => []
  | k + 1, n => hex k (n / 16) ++ [hexDigit (n % 16)]

/-- A backslash and a letter. -/
def short (letter : UInt8) : Bytes := [Bytes.backslash, letter]

/-- The escape of a character that is not printable. -/
def escapeOf (n : Nat) : Bytes :=
  match n with
  | 0x07 => short 0x61
  | 0x08 => short 0x62
  | 0x0C => short 0x66
  | 0x0A => short 0x6E
  | 0x0D => short 0x72
  | 0x09 => short 0x74
  | 0x0B => short 0x76
  | n =>
    if n < 0x20 || n == 0x7F then short 0x78 ++ hex 2 n
    else if n < 0x10000 then short 0x75 ++ hex 4 n
    else short 0x55 ++ hex 8 n

/-- One character of a quoted text, `mark` being the quote. -/
def char (mark : Char) (c : Char) : Bytes :=
  if c == mark || c == '\\' then Bytes.backslash :: Utf8.encodeChar c
  else if Printable.holds c.toNat then Utf8.encodeChar c
  else escapeOf c.toNat

/-- The body of a quoted text, after dropping the `k` bytes that the character before it covers. -/
def bodyFrom : Nat → Bytes → Bytes
  | _, [] => []
  | k + 1, _ :: s => bodyFrom k s
  | 0, b :: s =>
    match Utf8.first? b s with
    | some (c, more) => char '"' c ++ bodyFrom more s
    | none => short 0x78 ++ hex 2 b.toNat ++ bodyFrom 0 s

/-- A text between double quotes. -/
def text (s : Bytes) : Bytes := 0x22 :: bodyFrom 0 s ++ [0x22]

/-- The character with the code of one byte, between single quotes. -/
def byte (b : UInt8) : Bytes :=
  0x27 :: char (Char.ofNat 0x27) (Char.ofNat b.toNat) ++ [0x27]

end Quoted

end EmphasisSpacing
