import EmphasisSpacing.Text.Bytes

/-!
# Integers as text

Writing an integer in decimal, and the two ways in which options and variables are read: plain decimal
(`readDecimal?`) and a number whose base its beginning tells (`read`). Numbers are signed 64-bit
integers; a number outside that range is refused, never wrapped.
-/

namespace EmphasisSpacing

namespace Integer

/-! ### Writing -/

/-- The byte of a decimal digit. -/
def digitByte (d : Nat) : UInt8 := UInt8.ofNat (0x30 + d)

/-- The decimal digits of `n`, put in front of `acc`; `fuel` is at least the number of digits. -/
def natDigits : (fuel n : Nat) → (acc : Bytes) → Bytes
  | 0, _, acc => acc
  | fuel + 1, n, acc =>
    let acc := digitByte (n % 10) :: acc
    if n < 10 then acc else natDigits fuel (n / 10) acc

/-- A natural number in decimal. -/
def ofNat (n : Nat) : Bytes := natDigits (n + 1) n []

/-- An integer in decimal, with a minus sign when negative. -/
def ofInt : Int → Bytes
  | .ofNat n => ofNat n
  | .negSucc n => 0x2D :: ofNat (n + 1)

/-! ### Reading -/

/-- The least 64-bit integer, -2^63. -/
def least : Int := -0x8000000000000000

/-- The greatest 64-bit integer, 2^63 - 1. -/
def greatest : Int := 0x7FFFFFFFFFFFFFFF

/-- Whether `n` is a signed 64-bit integer. -/
def fits (n : Int) : Bool := least ≤ n && n ≤ greatest

/-- `n` brought into the range of signed 64-bit integers, modulo 2^64. -/
def wrap (n : Int) : Int := n.bmod 0x10000000000000000

/-- The sign of a number and what follows it; a missing sign counts as plus. -/
def splitSign : Bytes → Bool × Bytes
  | 0x2B :: s => (false, s)
  | 0x2D :: s => (true, s)
  | s => (false, s)

/-- The value of a string of decimal digits; nothing when another byte occurs. -/
def natOfDigits? : (acc : Nat) → Bytes → Option Nat
  | acc, [] => some acc
  | acc, b :: s => if Bytes.isDigit b then natOfDigits? (acc * 10 + (b.toNat - 0x30)) s else none

/-- A decimal number: an optional sign and at least one digit, in the 64-bit range. -/
def readDecimal? (s : Bytes) : Option Int :=
  let (neg, digits) := splitSign s
  if digits.isEmpty then none
  else match natOfDigits? 0 digits with
    | none => none
    | some n =>
      let v : Int := if neg then -(n : Int) else n
      if fits v then some v else none

/-- Why a number cannot be read. -/
inductive ReadError where
  | syntaxError
  | outOfRange
  deriving DecidableEq, Repr

/-- The words for a reading error. -/
def ReadError.message : ReadError → String
  | .syntaxError => "invalid syntax"
  | .outOfRange => "value out of range"

/-- The value of a digit in a base up to 36: letters go on after nine. -/
def digitValue? (b : UInt8) : Option Nat :=
  let l := Bytes.lowerAscii b
  if Bytes.isDigit b then some (b.toNat - 0x30)
  else if 0x61 ≤ l && l ≤ 0x7A then some (l.toNat - 0x61 + 10)
  else none

/-- The base of an unsigned number and its digits: `0b`, `0o` and `0x` announce one, another leading
zero means octal. -/
def splitBase (s : Bytes) : Nat × Bytes :=
  match s with
  | 0x30 :: c :: d :: rest =>
    let l := Bytes.lowerAscii c
    if l == 0x62 then (2, d :: rest)
    else if l == 0x6F then (8, d :: rest)
    else if l == 0x78 then (16, d :: rest)
    else (8, c :: d :: rest)
  | 0x30 :: rest => (8, rest)
  | s => (10, s)

/-- The value of the digits of an unsigned number. Underscores are passed over here. The number is
out of range as soon as it passes 2^64, whatever follows. -/
def magnitude (base : Nat) : (acc : Nat) → Bytes → Except ReadError Nat
  | acc, [] => .ok acc
  | acc, b :: s =>
    if b == 0x5F then magnitude base acc s
    else match digitValue? b with
      | none => .error .syntaxError
      | some d =>
        if base ≤ d then .error .syntaxError
        else if 2 ^ 64 ≤ acc * base + d then .error .outOfRange
        else magnitude base (acc * base + d) s

/-- Whether every underscore stands between two digits; `afterDigit` tells what the byte before
was. -/
def underscoresSeparate : (afterDigit : Bool) → Bytes → Bool
  | _, [] => true
  | ok, b :: s =>
    if b == 0x5F then ok && !s.isEmpty && s.head? != some 0x5F && underscoresSeparate false s
    else underscoresSeparate true s

/-- Whether the underscores of an unsigned number are well placed: the announcement of a base counts
as a digit. -/
def underscoresOk (s : Bytes) : Bool :=
  match s with
  | 0x30 :: c :: rest =>
    let l := Bytes.lowerAscii c
    if l == 0x62 || l == 0x6F || l == 0x78 then underscoresSeparate true rest
    else underscoresSeparate false s
  | s => underscoresSeparate false s

/-- A number with an optional sign whose beginning tells its base, in the 64-bit range. -/
def read (s : Bytes) : Except ReadError Int :=
  let (neg, unsigned) := splitSign s
  if unsigned.isEmpty then .error .syntaxError
  else
    let (base, digits) := splitBase unsigned
    match magnitude base 0 digits with
    | .error e => .error e
    | .ok n =>
      if digits.contains 0x5F && !underscoresOk unsigned then .error .syntaxError
      else
        let v : Int := if neg then -(n : Int) else n
        if fits v then .ok v else .error .outOfRange

end Integer

end EmphasisSpacing
