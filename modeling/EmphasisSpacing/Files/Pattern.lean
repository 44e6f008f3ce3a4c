import EmphasisSpacing.Files.Path
import EmphasisSpacing.Text.Utf8

/-!
# Exclude patterns

A pattern names paths: `*` stands for any run of characters within one part of a path, `**` as a whole
part for any number of parts, `?` for one character, `[...]` for one of a class and `{a,b}` for one of
several alternatives. A backslash takes the next character as it is.

**How matching goes.** Pattern and name are read together from the left. Two places are kept to which
matching can go back: the last `*`, which then takes one more character, and the last `**`, which then
takes one more part. Alternatives are put in place of their group one after the other, and matching goes
on from there as at the start of a part. A fault in the pattern that is met on the way, or is left when
matching gives up, ends the matching with no match.
-/

namespace EmphasisSpacing

namespace Pattern

/-- The separator of the parts of a path. -/
def separator : Char := '/'

/-! ### Looking ahead in a pattern -/

/-- The rest of a pattern behind the next `stop` that is not escaped. -/
def afterUnescaped? (stop : Char) : List Char → Option (List Char)
  | [] => none
  | '\\' :: _ :: cs => afterUnescaped? stop cs
  | c :: cs =>
    if c == '\\' then none else if c == stop then some cs else afterUnescaped? stop cs

/-- The alternatives of a group and the pattern behind it, where `depth` further groups are open and
`piece` holds the current alternative backwards. Nothing when the group has no end. -/
def alternatives? : (depth : Nat) → (piece : List Char) → List Char →
    Option (List (List Char) × List Char)
  | _, _, [] => none
  | depth, piece, '\\' :: c :: cs => alternatives? depth (c :: '\\' :: piece) cs
  | depth, piece, c :: cs =>
    if c == '\x7b' then alternatives? (depth + 1) (c :: piece) cs
    else if c == '\x7d' then
      match depth with
      | 0 => some ([piece.reverse], cs)
      | depth + 1 => alternatives? depth (c :: piece) cs
    else if c == ',' && depth == 0 then
      (alternatives? depth [] cs).map fun (alts, rest) => (piece.reverse :: alts, rest)
    else alternatives? depth (c :: piece) cs

/-! ### Valid patterns -/

/-- The pattern behind the class whose members start here; nothing when the class has no end. A
backslash escapes the next character. -/
def afterClass? (cs : List Char) : Option (List Char) :=
  let members := if cs.head? == some '!' || cs.head? == some '^' then cs.drop 1 else cs
  if members.isEmpty || members.head? == some ']' then none else afterUnescaped? ']' members

/-- Whether a pattern is well formed inside `depth` open groups; `fuel` is at least its length. -/
def isValidFrom : (fuel depth : Nat) → List Char → Bool
  | 0, depth, _ => depth == 0
  | _, depth, [] => depth == 0
  | fuel + 1, depth, c :: cs =>
    if c == '\\' then !cs.isEmpty && isValidFrom fuel depth (cs.drop 1)
    else if c == '[' then
      match afterClass? cs with
      | some rest => isValidFrom fuel depth rest
      | none => false
    else if c == '\x7b' then isValidFrom fuel (depth + 1) cs
    else if c == '\x7d' then depth != 0 && isValidFrom fuel (depth - 1) cs
    else isValidFrom fuel depth cs

/-- Whether a pattern is well formed: escapes and classes have an end, no class is empty, and groups
are balanced. -/
def isWellFormed (p : List Char) : Bool := isValidFrom p.length 0 p

/-- Whether a pattern is well formed. -/
def isValid (pattern : Bytes) : Bool := isWellFormed (Utf8.decode pattern)

/-! ### Classes -/

/-- The character at the front of a class, which a backslash may escape, and what follows it. -/
def classChar (cs : List Char) : Char × List Char :=
  match cs with
  | '\\' :: c :: cs => (c, cs)
  | ['\\'] => (Utf8.replacement, [])
  | c :: cs => (c, cs)
  | [] => (Utf8.replacement, [])

/-- Looks for `c` among the members of a class, up to its end or a hit. `last` is the member before,
unless it is used up by a range. The second result is the pattern where the search stopped; `fuel` is at
least its length. -/
def classSearch (c : Char) : (fuel : Nat) → (last : Option Char) → List Char → Bool × List Char
  | 0, _, cs => (false, cs)
  | fuel + 1, last, cs =>
    match cs with
    | [] => (false, [])
    | ']' :: _ => (false, cs)
    | d :: cs =>
      match last, d == '-' && !cs.isEmpty && cs.head? != some ']' with
      | some lo, true =>
        let (hi, cs) := classChar cs
        if lo ≤ c && c ≤ hi then (true, cs) else classSearch c fuel none cs
      | _, _ =>
        let (m, cs) := classChar (d :: cs)
        if m == c then (true, cs) else classSearch c fuel (some m) cs

/-- What a class says about a character. -/
inductive ClassResult where
  | bad
  /-- The character is not in the class; the search stopped at `rest`. -/
  | miss (rest : List Char)
  /-- The character is in the class, behind which `rest` follows. -/
  | hit (rest : List Char)
  deriving DecidableEq, Repr

/-- Tests a character against the class that starts behind a `[`. -/
def testClass (c : Char) (cs : List Char) : ClassResult :=
  let negate := cs.head? == some '!' || cs.head? == some '^'
  let members := if negate then cs.drop 1 else cs
  if members.isEmpty || members.head? == some ']' then .bad
  else
    let (found, rest) := classSearch c members.length none members
    if found == negate then (if rest.isEmpty then .bad else .miss rest)
    else match afterUnescaped? ']' rest with
      | some rest => .hit rest
      | none => .bad

/-! ### Matching -/

/-- A place to which matching can go back. -/
structure Retry where
  pattern : List Char
  name : List Char
  deriving DecidableEq, Repr

/-- The state of a match. -/
structure State where
  pattern : List Char
  name : List Char
  /-- Whether the pattern is at the start of a part. -/
  atStart : Bool
  star : Option Retry
  doubleStar : Option Retry
  deriving DecidableEq, Repr

/-- The place to retry when the end `old` of the pattern becomes `new`. -/
def Retry.retarget (old new : List Char) (r : Retry) : Retry :=
  { r with pattern := r.pattern.take (r.pattern.length - old.length) ++ new }

/-- The state with a new end of the pattern, as at the start of a part. -/
def State.retarget (s : State) (new : List Char) : State :=
  { pattern := new, name := s.name, atStart := true
    star := s.star.map (Retry.retarget s.pattern new)
    doubleStar := s.doubleStar.map (Retry.retarget s.pattern new) }

/-- The name behind its next separator. -/
def afterSeparator? : List Char → Option (List Char)
  | [] => none
  | c :: cs => if c == separator then some cs else afterSeparator? cs

/-- The state to go back to after a mismatch: the last star takes one more character if that is no
separator, else the last double star takes one more part. -/
def State.back? (s : State) : Option State :=
  let byStar : Option State := do
    let r ← s.star
    match r.name with
    | c :: rest =>
      if c == separator then none
      else some { s with
        pattern := r.pattern, name := rest, atStart := false, star := some ⟨r.pattern, rest⟩ }
    | [] => none
  let byDoubleStar : Option State := do
    let r ← s.doubleStar
    let rest ← afterSeparator? r.name
    some { s with
      pattern := r.pattern, name := rest, atStart := true, doubleStar := some ⟨r.pattern, rest⟩ }
  byStar.or byDoubleStar

/-- One step of a match whose name is not at its end. -/
inductive Step where
  | stop (matched : Bool)
  | goOn (s : State)
  /-- The name does not go on as the pattern says; `rest` is the pattern that was not used. -/
  | mismatch (rest : List Char)
  /-- The pattern continues with one of several ends. -/
  | oneOf (ends : List (List Char))

/-- The step for a star that is followed by `cs`. -/
def State.starStep (s : State) (cs : List Char) : Step :=
  let single (cs : List Char) : Step :=
    .goOn { s with pattern := cs, atStart := false, star := some ⟨cs, s.name⟩ }
  match cs with
  | '*' :: rest =>
    if !s.atStart then single rest
    else match rest with
      | [] => .stop true
      | '/' :: rest =>
        .goOn { s with pattern := rest, star := none, doubleStar := some ⟨rest, s.name⟩ }
      | _ => single rest
  | cs => single cs

/-- The step for a character `p` that stands for itself and is followed by `cs`. -/
def State.literalStep (s : State) (p : Char) (cs : List Char) (c : Char) (name : List Char) : Step :=
  if p == c then .goOn { s with pattern := cs, name := name, atStart := p == separator }
  else .mismatch s.pattern

/-- The next step, where the name goes on with `c` and then `name`. -/
def State.step (s : State) (c : Char) (name : List Char) : Step :=
  match s.pattern with
  | [] => .mismatch []
  | p :: cs =>
    if p == '*' then s.starStep cs
    else if p == '?' then
      if c == separator then .mismatch s.pattern
      else .goOn { s with pattern := cs, name := name, atStart := false }
    else if p == '[' then
      match testClass c cs with
      | .bad => .stop false
      | .miss rest => .mismatch rest
      | .hit rest => .goOn { s with pattern := rest, name := name, atStart := false }
    else if p == '\x7b' then
      match alternatives? 0 [] cs with
      | none => .stop false
      | some (alts, rest) => .oneOf (alts.map (· ++ rest))
    else if p == '\\' then
      match cs with
      | [] => .stop false
      | p :: cs => s.literalStep p cs c name
    else s.literalStep p cs c name

/-- The patterns that stand for nothing at the end of a name. A double star behind a separator also
names the directory itself. -/
def emptyForms : List (List Char) :=
  ["", "*", "**", "/**", "**/", "/**/"].map String.toList

/-- Whether a pattern can stand for nothing: it has one of the forms for that, or starts with
alternatives of which one can. A fault in the pattern gives `none`. -/
def matchesNothing? : (fuel : Nat) → List Char → Option Bool
  | 0, _ => some false
  | fuel + 1, p =>
    if emptyForms.contains p then some true
    else match p with
      | '\x7b' :: cs =>
        match alternatives? 0 [] cs with
        | none => none
        | some (alts, rest) =>
          alts.foldl (fun found alt =>
            match found with
            | some false => matchesNothing? fuel (alt ++ rest)
            | found => found) (some false)
      | _ => if isWellFormed p then some false else none

/-- Runs a match: a match, no match, or a fault in the pattern (`none`). -/
def run : (fuel : Nat) → State → Option Bool
  | 0, _ => some false
  | fuel + 1, s =>
    match s.name with
    | [] => matchesNothing? (s.pattern.length + 1) s.pattern
    | c :: name =>
      match s.step c name with
      | .stop true => some true
      | .stop false => none
      | .goOn s => run fuel s
      | .mismatch rest =>
        match s.back? with
        | some s => run fuel s
        | none => if isWellFormed rest then some false else none
      | .oneOf ends =>
        ends.foldl (fun found e =>
          match found with
          | some false => run fuel (s.retarget e)
          | found => found) (some false)

/-- A number of steps that no match reaches: a match goes forward at most the length of the pattern
between two retries; retries at stars and at double stars are bounded by the number of pairs of
positions each; and each group of alternatives makes the pattern shorter. -/
def stepBound (pattern name : List Char) : Nat :=
  Nat.pow (pattern.length + 2) 4 * Nat.pow (name.length + 2) 2

/-- Whether a pattern matches a whole name. -/
def holds (pattern name : Bytes) : Bool :=
  let p := Utf8.decode pattern
  let n := Utf8.decode name
  run (stepBound p n) ⟨p, n, true, none, none⟩ == some true

/-! ### Excluded paths -/

/-- Whether a pattern matches one of the names, cleaned, or the last part of the first, where
`matching` says which patterns match which names. -/
def excludesBy (matching : (pattern name : Bytes) → Bool) (patterns names : List Bytes) : Bool :=
  match names.map Path.clean with
  | [] => false
  | first :: more =>
    patterns.any fun p => (first :: more ++ [Path.base first]).any (matching p)

/-- Whether a pattern matches one of the names, cleaned, or the last part of the first. -/
def excludes (patterns names : List Bytes) : Bool := excludesBy holds patterns names

/-- How patterns are read: the parts of the program that exclude paths are given one. -/
structure Matcher where
  /-- Whether a pattern can be read at all. -/
  isValid : (pattern : Bytes) → Bool
  /-- Whether a pattern matches a whole name. -/
  holds : (pattern name : Bytes) → Bool

/-- The patterns of this module. -/
def standard : Matcher := ⟨isValid, holds⟩

end Pattern

end EmphasisSpacing
