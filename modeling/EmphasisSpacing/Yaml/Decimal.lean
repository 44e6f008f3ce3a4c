import EmphasisSpacing.Text.Bytes

/-!
# Decimal fractions and dates

What a plain scalar needs to know about numbers and dates: whether a decimal fraction is zero as a
64-bit floating-point number, and whether a text is a date, possibly with a time.

A fraction is read exactly, as a whole number and a power of ten. It is zero when it rounds to zero, and it
is no number when it is too large for the format.
-/

namespace EmphasisSpacing

namespace Yaml

/-! ### Fractions -/

/-- The value of decimal digits. -/
def digitsValue (cs : List Char) : Nat := cs.foldl (fun n c => n * 10 + (c.toNat - '0'.toNat)) 0

/-- The sign of a number and what follows it. -/
def splitSign : List Char → Bool × List Char
  | '+' :: cs => (false, cs)
  | '-' :: cs => (true, cs)
  | cs => (false, cs)

/-- The exponent behind a fraction: 0 when nothing is left, and nothing when something else is. -/
def exponent? (cs : List Char) : Option Int :=
  match cs with
  | [] => some 0
  | e :: cs =>
    let (isNegative, digits) := splitSign cs
    if (e == 'e' || e == 'E') && !digits.isEmpty && digits.all Char.isDigit then
      some (if isNegative then -(digitsValue digits : Int) else digitsValue digits)
    else none

/-- A decimal fraction without its sign: a whole number and the power of ten that goes with it. There are
digits before the point, after it, or both. -/
def fraction? (cs : List Char) : Option (Nat × Int) :=
  let (whole, rest) := cs.span Char.isDigit
  let (places, rest) := match rest with
    | '.' :: rest => rest.span Char.isDigit
    | rest => ([], rest)
  if whole.isEmpty && places.isEmpty then none
  else (exponent? rest).map fun e => (digitsValue (whole ++ places), e - places.length)

/-- The number of decimal digits of a number. -/
def digitCount (n : Nat) : Nat := (Nat.toDigits 10 n).length

/-- Whether `m * 10 ^ e` is at most `num / den`. -/
def atMost (m : Nat) (e : Int) (num den : Nat) : Bool :=
  m * Nat.pow 10 e.toNat * den ≤ num * Nat.pow 10 (-e).toNat

/-- Whether a fraction rounds to zero; nothing when it is too large. Half of the least number goes to
zero, and what is not below the middle between the greatest number and the next power of two is too
large. -/
def roundsToZero? (m : Nat) (e : Int) : Option Bool :=
  if m == 0 then some true
  else
    let magnitude := digitCount m + e
    if 400 < magnitude then none
    else if magnitude < -400 then some true
    else if atMost m e 1 (Nat.pow 2 1075) then some true
    else if atMost (Nat.pow 2 1024 - Nat.pow 2 970) 0
        (m * Nat.pow 10 e.toNat) (Nat.pow 10 (-e).toNat) then none
    else some false

/-- Whether a text is a decimal fraction that is zero as a floating-point number. -/
def floatIsZero? (cs : List Char) : Option Bool := do
  let (m, e) ← fraction? (splitSign cs).2
  roundsToZero? m e

/-- Whether every underscore of a text stands between two digits; `afterDigit` tells what the character
before was. -/
def separatesDigits : (afterDigit : Bool) → List Char → Bool
  | _, [] => true
  | afterDigit, '_' :: cs => afterDigit && cs.head?.any Char.isDigit && separatesDigits false cs
  | _, c :: cs => separatesDigits c.isDigit cs

/-! ### Dates -/

/-- A number of one or two digits, and what follows it. -/
def shortNumber? (cs : List Char) : Option (Nat × List Char) :=
  match cs with
  | a :: rest =>
    if !a.isDigit then none
    else match rest with
      | b :: more => if b.isDigit then some (digitsValue [a, b], more) else some (digitsValue [a], rest)
      | [] => some (digitsValue [a], [])
  | [] => none

/-- What follows `c` when a text starts with it. -/
def after? (c : Char) : List Char → Option (List Char)
  | d :: cs => if c == d then some cs else none
  | [] => none

/-- The number of days of a month. -/
def daysIn (year month : Nat) : Nat :=
  if month == 2 then
    (if year % 4 == 0 && (year % 100 != 0 || year % 400 == 0) then 29 else 28)
  else if [4, 6, 9, 11].contains month then 30
  else 31

/-- What follows a date: a year of four digits, a month and a day. -/
def afterDate? (cs : List Char) : Option (List Char) := do
  let (year, rest) := cs.span Char.isDigit
  if year.length != 4 then none
  else
    let rest ← after? '-' rest
    let (month, rest) ← shortNumber? rest
    let rest ← after? '-' rest
    let (day, rest) ← shortNumber? rest
    if 1 ≤ month && month ≤ 12 && 1 ≤ day && day ≤ daysIn (digitsValue year) month then some rest
    else none

/-- What follows the fraction of a second, if there is one. -/
def afterSecondFraction (cs : List Char) : List Char :=
  match cs with
  | p :: d :: rest => if (p == '.' || p == ',') && d.isDigit then rest.dropWhile Char.isDigit else cs
  | cs => cs

/-- What follows a time of the day. -/
def afterTime? (cs : List Char) : Option (List Char) := do
  let (hour, rest) ← shortNumber? cs
  let rest ← after? ':' rest
  let (minute, rest) ← shortNumber? rest
  let rest ← after? ':' rest
  let (second, rest) ← shortNumber? rest
  if hour < 24 && minute < 60 && second < 60 then some (afterSecondFraction rest) else none

/-- Whether a text is a time zone: `Z`, or hours and minutes with a sign. -/
def isZone (cs : List Char) : Bool :=
  match cs with
  | ['Z'] => true
  | [s, a, b, ':', c, d] =>
    (s == '+' || s == '-') && [a, b, c, d].all Char.isDigit && digitsValue [a, b] ≤ 24 &&
      digitsValue [c, d] ≤ 60
  | _ => false

/-- Whether a text is a date: alone, with a time behind a space, or with a time and a zone behind a
`T`. -/
def isDate (cs : List Char) : Bool :=
  match afterDate? cs with
  | some [] => true
  | some (' ' :: rest) => afterTime? (rest.dropWhile (· == ' ')) == some []
  | some (t :: rest) => (t == 'T' || t == 't') && (afterTime? rest).any isZone
  | none => false

end Yaml

end EmphasisSpacing
