import EmphasisSpacing.Text.Bytes

/-!
# Percent encoding

A byte that a part of an address cannot hold as it is is written as a percent sign and two hexadecimal
digits. Each part of an address has its own set of bytes that stay (`Percent.Part.keeps`).
-/

namespace EmphasisSpacing

namespace Percent

/-- The parts of an address, as far as they differ in what they can hold. -/
inductive Part where
  | path
  | user
  | host
  | zone
  | fragment
  deriving DecidableEq, Repr

/-- The marks that stay in every part: `-`, `.`, `_` and `~`. -/
def isMark (b : UInt8) : Bool := b == 0x2D || b == 0x2E || b == 0x5F || b == 0x7E

/-- The reserved bytes: `$ & + , / : ; = ? @`. -/
def isReserved (b : UInt8) : Bool :=
  [0x24, 0x26, 0x2B, 0x2C, 0x2F, 0x3A, 0x3B, 0x3D, 0x3F, 0x40].contains b

/-- What a host may hold besides letters, digits and marks: the sub-delimiters, the colon, brackets,
angle brackets and the double quote. -/
def isHostMark (b : UInt8) : Bool :=
  [0x21, 0x24, 0x26, 0x27, 0x28, 0x29, 0x2A, 0x2B, 0x2C, 0x3B, 0x3D, 0x3A, 0x5B, 0x5D, 0x3C, 0x3E,
    0x22].contains b

/-- Whether a part of an address holds a byte as it is. -/
def Part.keeps (part : Part) (b : UInt8) : Bool :=
  Bytes.isAlnum b || isMark b ||
    match part with
    | .path => isReserved b && b != 0x3F
    | .user => isReserved b && !([0x40, 0x2F, 0x3F, 0x3A].contains b)
    | .host | .zone => isHostMark b
    | .fragment => isReserved b || [0x21, 0x28, 0x29, 0x2A].contains b

/-- The byte of a hexadecimal digit, in upper case. -/
def hexDigit (d : Nat) : UInt8 := UInt8.ofNat (if d < 10 then 0x30 + d else 0x37 + d)

/-- The encoded form of a byte. -/
def encodeByte (b : UInt8) : Bytes := [0x25, hexDigit (b.toNat / 16), hexDigit (b.toNat % 16)]

/-- A text as a part of an address. -/
def encode (part : Part) (s : Bytes) : Bytes :=
  s.flatMap fun b => if part.keeps b then [b] else encodeByte b

/-- The value of a hexadecimal digit. -/
def hexValue? (b : UInt8) : Option Nat :=
  if Bytes.isDigit b then some (b.toNat - 0x30)
  else if 0x61 ≤ b && b ≤ 0x66 then some (b.toNat - 0x57)
  else if 0x41 ≤ b && b ≤ 0x46 then some (b.toNat - 0x37)
  else none

/-- Why a part of an address cannot be decoded. -/
inductive DecodeError where
  /-- A percent sign without two hexadecimal digits, or one that this part does not allow. -/
  | badEscape (shown : Bytes)
  /-- A byte that a host cannot hold. -/
  | badHostByte (b : UInt8)
  deriving DecidableEq, Repr

/-- The byte that an escape stands for and what follows it, where `s` follows the percent sign. -/
def escaped? (s : Bytes) : Option (UInt8 × Bytes) :=
  match s with
  | a :: b :: rest =>
    match hexValue? a, hexValue? b with
    | some x, some y => some (UInt8.ofNat (x * 16 + y), rest)
    | _, _ => none
  | _ => none

/-- Whether a part may hold an encoded `b`. In a host only bytes outside ASCII and the percent sign
are encoded, in a zone also what a host can hold and the space. -/
def Part.admitsEscape (part : Part) (b : UInt8) : Bool :=
  match part with
  | .host => 0x80 ≤ b || b == 0x25
  | .zone => b == 0x25 || b == 0x20 || Part.host.keeps b
  | _ => true

/-- Whether a part may hold `b` as it is. -/
def Part.admits (part : Part) (b : UInt8) : Bool :=
  match part with
  | .host | .zone => 0x80 ≤ b || part.keeps b
  | _ => true

/-- Decodes a part of an address, after dropping the `skip` bytes that the escape before covers. -/
def decodeFrom (part : Part) : (skip : Nat) → Bytes → Except DecodeError Bytes
  | _, [] => .ok []
  | skip + 1, _ :: s => decodeFrom part skip s
  | 0, b :: s =>
    if b == 0x25 then
      match escaped? s with
      | none => .error (.badEscape ((b :: s).take 3))
      | some (v, _) =>
        if part.admitsEscape v then (decodeFrom part 2 s).map (v :: ·)
        else .error (.badEscape ((b :: s).take 3))
    else if part.admits b then (decodeFrom part 0 s).map (b :: ·)
    else .error (.badHostByte b)

/-- Decodes a part of an address. -/
def decode (part : Part) (s : Bytes) : Except DecodeError Bytes := decodeFrom part 0 s

end Percent

end EmphasisSpacing
