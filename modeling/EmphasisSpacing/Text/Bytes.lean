/-!
# Byte strings

All text of the library is a list of bytes: documents, paths, messages and output. A document need
not be well-formed UTF-8, and every offset that a hint reports counts bytes, so bytes are the common
ground. Functions that look at characters decode first (`EmphasisSpacing.Text.Utf8`).

The functions here are the plain operations on byte strings that the rest of the library shares:
literals, looking for one string inside another, cutting at a byte, and replacing an occurrence.
-/

namespace EmphasisSpacing

/-- A byte string. -/
abbrev Bytes := List UInt8

namespace Bytes

/-! ### Named bytes -/

/-- Horizontal tab. -/
def tab : UInt8 := 0x09

/-- Line feed, which ends a line. -/
def lf : UInt8 := 0x0A

/-- Carriage return. -/
def cr : UInt8 := 0x0D

/-- The space. -/
def space : UInt8 := 0x20

/-- The dollar sign, which delimits math. -/
def dollar : UInt8 := 0x24

/-- The star, from which every emphasis marker is made. -/
def star : UInt8 := 0x2A

/-- The slash, which separates the parts of a path. -/
def slash : UInt8 := 0x2F

/-- The backslash, which escapes. -/
def backslash : UInt8 := 0x5C

/-- The grave accent, which delimits inline code. -/
def grave : UInt8 := 0x60

/-- A space or a tab: the only bytes that formatting moves. -/
def isBlank (b : UInt8) : Bool := b == space || b == tab

/-- An ASCII digit. -/
def isDigit (b : UInt8) : Bool := 0x30 ≤ b && b ≤ 0x39

/-- An ASCII letter. -/
def isLetter (b : UInt8) : Bool := (0x41 ≤ b && b ≤ 0x5A) || (0x61 ≤ b && b ≤ 0x7A)

/-- An ASCII letter or digit. -/
def isAlnum (b : UInt8) : Bool := isLetter b || isDigit b

/-- The lower-case form of an ASCII letter; other bytes stay. -/
def lowerAscii (b : UInt8) : UInt8 := if 0x41 ≤ b && b ≤ 0x5A then b + 0x20 else b

/-! ### Searching and cutting -/

/-- What follows `p` when `s` starts with it. -/
def dropPrefix? : (p s : Bytes) → Option Bytes
  | [], s => some s
  | _ :: _, [] => none
  | a :: p, b :: s => if a == b then dropPrefix? p s else none

/-- Whether `s` starts with `p`. -/
def startsWith (s p : Bytes) : Bool := (dropPrefix? p s).isSome

/-- Whether `s` ends with `p`. -/
def endsWith (s p : Bytes) : Bool := startsWith s.reverse p.reverse

/-- What precedes `p` when `s` ends with it. -/
def dropSuffix? (p s : Bytes) : Option Bytes :=
  (dropPrefix? p.reverse s.reverse).map List.reverse

/-- Whether `needle` occurs in `s`. -/
def hasInfix (needle : Bytes) : Bytes → Bool
  | [] => needle.isEmpty
  | b :: s => startsWith (b :: s) needle || hasInfix needle s

/-- `s` with the first occurrence of `old` replaced by `new`; without one, `s` itself. -/
def replaceFirst (old new : Bytes) : Bytes → Bytes
  | [] => if old.isEmpty then new else []
  | b :: s =>
    match dropPrefix? old (b :: s) with
    | some rest => new ++ rest
    | none => b :: replaceFirst old new s

/-- The parts of `s` before and after the first `b`; nothing when `b` does not occur. -/
def cutAt (b : UInt8) : Bytes → Option (Bytes × Bytes)
  | [] => none
  | c :: s => if c == b then some ([], s) else (cutAt b s).map fun (l, r) => (c :: l, r)

/-- The parts of `s` before and after the last `b`; nothing when `b` does not occur. -/
def cutAtLast (b : UInt8) (s : Bytes) : Option (Bytes × Bytes) :=
  (cutAt b s.reverse).map fun (r, l) => (l.reverse, r.reverse)

/-- The parts of `s` between the occurrences of `b`. There is always at least one part. -/
def splitOn (b : UInt8) : Bytes → List Bytes
  | [] => [[]]
  | c :: s =>
    if c == b then [] :: splitOn b s
    else match splitOn b s with
      | [] => [[c]]
      | p :: ps => (c :: p) :: ps

/-- The parts of a text that end with a line feed, and what is left after the last one if anything.
The first part goes on after the bytes of `before`, given backwards. -/
def splitAfterLfFrom : (before : Bytes) → Bytes → List Bytes
  | [], [] => []
  | b :: before, [] => [(b :: before).reverse]
  | before, b :: s =>
    if b == lf then (b :: before).reverse :: splitAfterLfFrom [] s
    else splitAfterLfFrom (b :: before) s

/-- The parts of `s` that end with a line feed, and what is left after the last one if anything. -/
def splitAfterLf (s : Bytes) : List Bytes := splitAfterLfFrom [] s

/-- The strings of `parts` with `sep` between neighbours. -/
def joinWith (sep : Bytes) : List Bytes → Bytes
  | [] => []
  | [p] => p
  | p :: q :: ps => p ++ sep ++ joinWith sep (q :: ps)

/-- The order of byte strings: byte by byte, a proper beginning first. -/
def le : Bytes → Bytes → Bool
  | [], _ => true
  | _ :: _, [] => false
  | a :: s, b :: t => a < b || (a == b && le s t)

end Bytes

end EmphasisSpacing
