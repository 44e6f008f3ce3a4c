import EmphasisSpacing.Files.FileSystem

/-!
# Paths by wildcard

A wildcard pattern names existing paths: `*` stands for any run of bytes within one part of a path, `?` for
one character and `[...]` for one character of a class, `[^...]` for one outside it. A backslash takes what
follows as it is.

A pattern is first read into its tokens. Between two stars the tokens form a stretch, and a name matches
when the stretches occur in it in order: each of them is taken as early as possible, and the last one has to
reach the end of the name.
-/

namespace EmphasisSpacing

namespace Glob

/-! ### Patterns -/

/-- A token of a pattern that stands for a piece of a name. -/
inductive Token where
  | byte (b : UInt8)
  | anyChar
  /-- A character in one of the ranges, or in none of them if `negated`. -/
  | oneOf (negated : Bool) (ranges : List (Nat × Nat))
  deriving DecidableEq, Repr

/-- A stretch of tokens. -/
structure Stretch where
  /-- Whether a star stands before it. -/
  afterStar : Bool
  tokens : List Token
  deriving DecidableEq, Repr

/-- The first character of a text by its number, and what follows. A byte that is part of no character
counts as the replacement character. -/
def firstChar (b : UInt8) (s : Bytes) : Nat × Bytes :=
  match Utf8.first? b s with
  | some (c, more) => (c.toNat, s.drop more)
  | none => (Utf8.replacement.toNat, s)

/-- A character of a class. Hyphens and closing brackets need a backslash, and the pattern cannot end
behind it. -/
def member? (s : Bytes) : Option (Nat × Bytes) :=
  let read (b : UInt8) (s : Bytes) : Option (Nat × Bytes) := do
    let (c, more) ← Utf8.first? b s
    let rest := s.drop more
    if rest.isEmpty then none else return (c.toNat, rest)
  match s with
  | [] => none
  | 0x2D :: _ => none
  | 0x5D :: _ => none
  | 0x5C :: b :: s => read b s
  | b :: s => if b == Bytes.backslash then none else read b s

/-- The ranges of a class, which has at least one, and the pattern behind it. `found` holds the ranges so
far, backwards; `fuel` is at least the length of the pattern. -/
def ranges? : (fuel : Nat) → (found : List (Nat × Nat)) → Bytes → Option (List (Nat × Nat) × Bytes)
  | 0, _, _ => none
  | fuel + 1, found, s =>
    match found, s with
    | _ :: _, 0x5D :: s => some (found.reverse, s)
    | found, s => do
      let (low, s) ← member? s
      match s with
      | 0x2D :: s =>
        let (high, s) ← member? s
        ranges? fuel ((low, high) :: found) s
      | s => ranges? fuel ((low, low) :: found) s

/-- Adds a token to the first stretch. -/
def addToken (t : Token) : List Stretch → List Stretch
  | [] => [⟨false, [t]⟩]
  | s :: rest => ⟨s.afterStar, t :: s.tokens⟩ :: rest

/-- Puts a star before the first stretch. Another star before it changes nothing. -/
def addStar : List Stretch → List Stretch
  | [] => [⟨false, []⟩, ⟨true, []⟩]
  | ⟨true, tokens⟩ :: rest => ⟨false, []⟩ :: ⟨true, tokens⟩ :: rest
  | ⟨false, []⟩ :: ⟨true, tokens⟩ :: rest => ⟨false, []⟩ :: ⟨true, tokens⟩ :: rest
  | ⟨false, tokens⟩ :: rest => ⟨false, []⟩ :: ⟨true, tokens⟩ :: rest

/-- The stretches of a pattern; nothing when it is ill formed. The first stretch is the one before the
first star. `fuel` is more than the length of the pattern. -/
def readFrom? : (fuel : Nat) → Bytes → Option (List Stretch)
  | 0, _ => none
  | _ + 1, [] => some [⟨false, []⟩]
  | fuel + 1, b :: s =>
    if b == Bytes.star then (readFrom? fuel s).map addStar
    else if b == 0x3F then (readFrom? fuel s).map (addToken .anyChar)
    else if b == Bytes.backslash then
      match s with
      | [] => none
      | c :: s => (readFrom? fuel s).map (addToken (.byte c))
    else if b == 0x5B then do
      let negated := s.head? == some 0x5E
      let (ranges, s) ← ranges? (s.length + 1) [] (if negated then s.drop 1 else s)
      (readFrom? fuel s).map (addToken (.oneOf negated ranges))
    else (readFrom? fuel s).map (addToken (.byte b))

/-- The stretches of a pattern; nothing when it is ill formed. -/
def read? (pattern : Bytes) : Option (List Stretch) := readFrom? (pattern.length + 1) pattern

/-- Whether a pattern is well formed. -/
def isValid (pattern : Bytes) : Bool := (read? pattern).isSome

/-- Whether a text holds anything that has a meaning in a pattern. -/
def isWild (pattern : Bytes) : Bool :=
  pattern.any fun b => b == Bytes.star || b == 0x3F || b == 0x5B || b == Bytes.backslash

/-! ### Names -/

/-- What is left of a name behind a token at its beginning. -/
def afterToken? (b : UInt8) (s : Bytes) : Token → Option Bytes
  | .byte c => if b == c then some s else none
  | .anyChar => if b == Bytes.slash then none else some (firstChar b s).2
  | .oneOf negated ranges =>
    let (c, rest) := firstChar b s
    if (ranges.any fun (low, high) => low ≤ c && c ≤ high) == negated then none else some rest

/-- What is left of a name behind tokens at its beginning. -/
def afterTokens? : List Token → Bytes → Option Bytes
  | [], s => some s
  | _ :: _, [] => none
  | t :: ts, b :: s => (afterToken? b s t).bind (afterTokens? ts)

/-- What is left of a name behind the given tokens, with anything but a slash before them. If `isLast`
nothing may be left. -/
def afterStar? (isLast : Bool) (tokens : List Token) : Bytes → Option Bytes
  | [] => (afterTokens? tokens []).filter fun rest => rest.isEmpty || !isLast
  | b :: s =>
    match (afterTokens? tokens (b :: s)).filter fun rest => rest.isEmpty || !isLast with
    | some rest => some rest
    | none => if b == Bytes.slash then none else afterStar? isLast tokens s

/-- Whether a name consists of the given stretches. -/
def consistsOf : List Stretch → Bytes → Bool
  | [], name => name.isEmpty
  | ⟨false, tokens⟩ :: rest, name =>
    match afterTokens? tokens name with
    | some name => consistsOf rest name
    | none => false
  | ⟨true, tokens⟩ :: rest, name =>
    match afterStar? rest.isEmpty tokens name with
    | some name => consistsOf rest name
    | none => false

/-- Whether a name matches a pattern. -/
def holds (pattern name : Bytes) : Bool := ((read? pattern).map (consistsOf · name)).getD false

/-! ### Paths -/

/-- The paths of the entries in a folder whose names match a pattern. -/
def inFolder (fs : FileSystem) (pattern folder : Bytes) : List Bytes :=
  ((fs.namesIn folder).filter (holds pattern)).map fun name => Path.join [folder, name]

/-- The existing paths that match a pattern, which is given by its parts, the last one first; nothing when
the pattern is ill formed. The parts above the last one are looked up as a pattern of their own if they
have wildcards. -/
def pathsOf? (fs : FileSystem) (rooted : Bool) : List Bytes → Option (List Bytes)
  | [] => some []
  | last :: above =>
    let pattern := Path.ofParts rooted (last :: above).reverse
    let folder := Path.ofParts rooted above.reverse
    if !isValid pattern then none
    else if !isWild pattern then
      some (if (fs.stat pattern).toOption.isSome then [pattern] else [])
    else if !isWild folder then some (inFolder fs last folder)
    else (pathsOf? fs rooted above).map fun folders => folders.flatMap (inFolder fs last)

/-- The existing paths that match a pattern, in order; nothing when the pattern is ill formed. -/
def paths? (fs : FileSystem) (pattern : Bytes) : Option (List Bytes) :=
  pathsOf? fs (Path.isAbsolute pattern) (Path.parts pattern).reverse

end Glob

end EmphasisSpacing
