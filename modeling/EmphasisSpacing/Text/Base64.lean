import EmphasisSpacing.Text.Bytes

/-!
# Base 64

Bytes written with 64 characters, four of them for three bytes. The last group is filled up with equals
signs. Line breaks between the characters do not count.
-/

namespace EmphasisSpacing

namespace Base64

/-- The equals sign, which fills up the last group. -/
def filler : UInt8 := 0x3D

/-- The number that a character stands for. -/
def digit? (b : UInt8) : Option Nat :=
  if 0x41 ≤ b && b ≤ 0x5A then some (b.toNat - 0x41)
  else if 0x61 ≤ b && b ≤ 0x7A then some (b.toNat - 0x61 + 26)
  else if Bytes.isDigit b then some (b.toNat - 0x30 + 52)
  else if b == 0x2B then some 62
  else if b == 0x2F then some 63
  else none

/-- The three bytes of a group of four numbers. -/
def group (a b c d : Nat) : Bytes :=
  [UInt8.ofNat (a * 4 + b / 16), UInt8.ofNat (b % 16 * 16 + c / 4), UInt8.ofNat (c % 4 * 64 + d)]

/-- The bytes of characters without line breaks; nothing when they are ill formed. -/
def decodeGroups? : Bytes → Option Bytes
  | [] => some []
  | a :: b :: c :: d :: rest => do
    let a ← digit? a
    let b ← digit? b
    if rest.isEmpty && d == filler then
      if c == filler then return (group a b 0 0).take 1
      else return (group a b (← digit? c) 0).take 2
    else return group a b (← digit? c) (← digit? d) ++ (← decodeGroups? rest)
  | _ => none

/-- The bytes that a text stands for; nothing when it is ill formed. -/
def decode? (s : Bytes) : Option Bytes :=
  decodeGroups? (s.filter fun b => b != Bytes.lf && b != Bytes.cr)

end Base64

end EmphasisSpacing
