import EmphasisSpacing.Yaml.ScalarText

/-!
# Tokens

The words of a YAML text. Most of them are marks and scalars that stand in the text; the starts and ends of
block collections and the marks of simple keys stand nowhere and follow from columns.

**Simple keys.** That a scalar is a key shows only at the colon behind it. So whenever something comes that
could be a key, its place among the tokens is kept (`SimpleKey`), one place for each open flow collection
and one for the blocks around them; at a colon, the mark of the key is put in at that place. A place is
good for one line. In a block mapping, whatever starts at the column of the mapping has to be a key.

**Faults.** A text that breaks off is still a list of tokens, which ends with the token `fault`: whoever
reads that far has to refuse, and whoever stops before does not.
-/

namespace EmphasisSpacing

namespace Yaml

/-- A word of a YAML text. -/
inductive Token where
  | streamEnd
  | documentStart
  | documentEnd
  | version (major minor : Nat)
  | tagDirective (handle lead : List Char)
  | blockSequenceStart
  | blockMappingStart
  | blockEnd
  | flowSequenceStart
  | flowSequenceEnd
  | flowMappingStart
  | flowMappingEnd
  | blockEntry
  | flowEntry
  | key
  | value
  | alias (name : List Char)
  | anchor (name : List Char)
  | tag (handle suffix : List Char)
  | scalar (isPlain : Bool) (text : List Char)
  | fault
  deriving DecidableEq, Repr

namespace Token

/-! ### The state of reading -/

/-- The place of something that could be a key. -/
structure SimpleKey where
  /-- Whether it has to be a key. -/
  required : Bool
  /-- How many tokens come before it. -/
  number : Nat
  start : Glyph
  deriving DecidableEq, Repr

/-- The state of reading tokens. -/
structure State where
  rest : List Glyph
  /-- The tokens so far, the latest first. -/
  tokens : List Token
  /-- The column of the innermost block collection; -1 outside of all. -/
  indent : Int
  /-- The columns of the block collections around it. -/
  outer : List Int
  /-- Whether a key may start here. -/
  keyAllowed : Bool
  /-- The possible key of each open flow collection, the innermost first, and at last that of the
  blocks. -/
  keys : List (Option SimpleKey)
  deriving DecidableEq, Repr

namespace State

/-- The number of open flow collections. -/
def flowLevel (s : State) : Nat := s.keys.length - 1

/-- Whether a flow collection is open. -/
def inFlow (s : State) : Bool := s.flowLevel != 0

/-- The column of the next character. -/
def column (s : State) : Nat := columnOf s.rest

/-- The state with one more token. -/
def push (s : State) (t : Token) : State := { s with tokens := t :: s.tokens }

/-- The state with a token put in behind the first `number` tokens. -/
def insert (s : State) (number : Nat) (t : Token) : State :=
  let later := s.tokens.length - number
  { s with tokens := s.tokens.take later ++ t :: s.tokens.drop later }

/-- The state with another possible key on the present level. -/
def setKey (s : State) (k : Option SimpleKey) : State := { s with keys := k :: s.keys.drop 1 }

/-- The possible key on the present level. -/
def key? (s : State) : Option SimpleKey := s.keys.head?.join

/-- Gives up the possible key on the present level. One that has to be a key cannot be given up. -/
def dropKey? (s : State) : Option State :=
  match s.key? with
  | some k => if k.required then none else some (s.setKey none)
  | none => some s

/-- Keeps the present place as that of a possible key, where keys are allowed. -/
def saveKey? (s : State) (start : Glyph) : Option State :=
  if !s.keyAllowed then some s
  else do
    let required := !s.inFlow && s.indent == start.column
    let s ← s.dropKey?
    return s.setKey (some ⟨required, s.tokens.length, start⟩)

/-- Ends the block collections that are further to the right than `column`. -/
def unroll (column : Int) : (outer : List Int) → State → State
  | outer, s =>
    if s.inFlow || s.indent ≤ column then { s with outer := outer }
    else match outer with
      | [] => { s.push .blockEnd with indent := -1, outer := [] }
      | i :: outer => unroll column outer { s.push .blockEnd with indent := i }

/-- Starts a block collection at `column`, unless one is there already; its start goes behind the first
`number` tokens. -/
def roll (s : State) (column : Int) (number : Nat) (t : Token) : State :=
  if s.inFlow || column ≤ s.indent then s
  else { s.insert number t with indent := column, outer := s.indent :: s.outer }

/-- The state behind the next `n` characters, with one more token. -/
def take (s : State) (n : Nat) (t : Token) : State := { s.push t with rest := s.rest.drop n }

/-! ### Reading one token -/

/-- Ends everything that is open in the blocks, for a mark at the start of a line. -/
def closeBlocks? (s : State) : Option State := do
  let s ← (unroll (-1) s.outer s).dropKey?
  return { s with keyAllowed := false }

/-- The start of a flow collection. -/
def flowStart? (s : State) (g : Glyph) (t : Token) : Option State := do
  let s ← s.saveKey? g
  return { s.take 1 t with keys := none :: s.keys, keyAllowed := true }

/-- The end of a flow collection. -/
def flowEnd? (s : State) (t : Token) : Option State := do
  let s ← s.dropKey?
  let keys := if s.inFlow then s.keys.drop 1 else s.keys
  return { s.take 1 t with keys := keys, keyAllowed := false }

/-- A comma between the entries of a flow collection. -/
def comma? (s : State) : Option State := do
  let s ← s.dropKey?
  return { s.take 1 .flowEntry with keyAllowed := true }

/-- A hyphen in front of an entry of a block sequence. -/
def hyphen? (s : State) : Option State := do
  if !s.inFlow && !s.keyAllowed then none
  else
    let s := s.roll s.column s.tokens.length .blockSequenceStart
    let s ← s.dropKey?
    return { s.take 1 .blockEntry with keyAllowed := true }

/-- A question mark in front of a key. -/
def explicitKey? (s : State) : Option State := do
  if !s.inFlow && !s.keyAllowed then none
  else
    let s := s.roll s.column s.tokens.length .blockMappingStart
    let s ← s.dropKey?
    return { s.take 1 .key with keyAllowed := !s.inFlow }

/-- How far behind its start the colon of a simple key may be. -/
def maxKeyLength : Nat := 1024

/-- Whether the colon `g` is near enough to the place of a possible key. -/
def reaches (k : SimpleKey) (g : Glyph) : Bool :=
  k.start.line == g.line && g.index ≤ k.start.index + maxKeyLength

/-- A colon behind a key that had a question mark, or behind no key at all. -/
def complexValue? (s : State) : Option State :=
  if !s.inFlow && !s.keyAllowed then none
  else
    let s := s.roll s.column s.tokens.length .blockMappingStart
    some { s.take 1 .value with keyAllowed := !s.inFlow }

/-- A colon. If something that can be a key is in front of it, that is a key now. -/
def value? (s : State) (g : Glyph) : Option State :=
  match s.key? with
  | some k =>
    if reaches k g then
      let s := (s.insert k.number .key).roll k.start.column k.number .blockMappingStart
      some { (s.setKey none).take 1 .value with keyAllowed := false }
    else if k.required then none
    else complexValue? (s.setKey none)
  | none => complexValue? s

/-- A scalar that may be a key, with its text and what follows it. -/
def scalar? (s : State) (g : Glyph) (isPlain keyAllowed : Bool) (text : List Char)
    (rest : List Glyph) : Option State := do
  let s ← s.saveKey? g
  return { s.push (.scalar isPlain text) with rest := rest, keyAllowed := keyAllowed }

/-- A plain scalar. After a line break a key may follow it. -/
def plain? (s : State) (g : Glyph) : Option State := do
  let (text, isBroken, rest) ← plainFrom s.inFlow (s.indent + 1) [] .empty s.rest
  s.scalar? g true isBroken text rest

/-- A quoted scalar, behind its opening quote. -/
def quotedScalar? (s : State) (g : Glyph) (single : Bool) : Option State := do
  let (text, rest) ← quoted? single (s.rest.drop 1)
  s.scalar? g false false text rest

/-- A block scalar, behind its sign. It cannot be a key. -/
def blockScalar? (s : State) (literal : Bool) : Option State := do
  let s ← s.dropKey?
  let (text, rest) ← block? literal s.indent (s.rest.drop 1)
  return { s.push (.scalar false text) with rest := rest, keyAllowed := true }

/-! ### Anchors, tags and directives -/

/-- A character of a name: an ASCII letter or digit, an underscore or a hyphen. -/
def isNameChar (c : Char) : Bool := c.isAlphanum || c == '_' || c == '-'

/-- The name at the front of a text, and what follows it. -/
def name (gs : List Glyph) : List Char × List Glyph :=
  let (name, rest) := gs.span fun g => isNameChar g.char
  (name.map Glyph.char, rest)

/-- An anchor or an alias, behind its sign: a name, and then a gap or a mark. -/
def reference? (s : State) (g : Glyph) (token : List Char → Token) : Option State := do
  let s ← s.saveKey? g
  let (name, rest) := name (s.rest.drop 1)
  let ends := atGap rest || rest.head?.any fun g => "?:,]\x7d%@\x60".toList.contains g.char
  if name.isEmpty || !ends then none
  else some { s.push (token name) with rest := rest, keyAllowed := false }

/-- A character of the address in a tag. -/
def isTagChar (c : Char) : Bool :=
  isNameChar c || ";/?:@&=+$,.!~*()[]%".toList.contains c || c == singleQuote

/-- The address of a tag, and what follows it. -/
def tagText (gs : List Glyph) : List Char × List Glyph :=
  let (text, rest) := gs.span fun g => isTagChar g.char
  (text.map Glyph.char, rest)

/-- The handle and the rest of a tag behind its exclamation mark, and what follows: an address between
angle brackets, a named handle with an address, or an address alone. -/
def tagParts? (gs : List Glyph) : Option (List Char × List Char × List Glyph) :=
  if gs.head?.any (·.char == '<') then
    let (address, rest) := tagText (gs.drop 1)
    if !address.isEmpty && rest.head?.any (·.char == '>') then some ([], address, rest.drop 1)
    else none
  else
    let (handle, rest) := name gs
    if rest.head?.any (·.char == '!') then
      let (suffix, rest) := tagText (rest.drop 1)
      if suffix.isEmpty then none else some ('!' :: handle ++ ['!'], suffix, rest)
    else
      let (suffix, rest) := tagText gs
      if suffix.isEmpty then some ([], ['!'], rest) else some (['!'], suffix, rest)

/-- A tag. A gap has to follow it. -/
def tag? (s : State) (g : Glyph) : Option State := do
  let s ← s.saveKey? g
  let (handle, suffix, rest) ← tagParts? (s.rest.drop 1)
  if atGap rest then
    return { s.push (.tag handle suffix) with rest := rest, keyAllowed := false }
  else none

/-- A text without the blanks in front of it. -/
def dropBlanks (gs : List Glyph) : List Glyph := gs.dropWhile fun g => isBlank g.char

/-- A decimal number of up to nine digits, and what follows it. -/
def number? (gs : List Glyph) : Option (Nat × List Glyph) :=
  let (digits, rest) := gs.span fun g => g.char.isDigit
  if digits.isEmpty || 9 < digits.length then none
  else some (digits.foldl (fun n g => n * 10 + (g.char.toNat - '0'.toNat)) 0, rest)

/-- The version of a version directive, and what follows it. -/
def version? (gs : List Glyph) : Option (Token × List Glyph) := do
  let (major, rest) ← number? (dropBlanks gs)
  if rest.head?.any (·.char == '.') then
    let (minor, rest) ← number? (rest.drop 1)
    return (.version major minor, rest)
  else none

/-- The handle and the lead of a tag directive, and what follows them. -/
def tagDirective? (gs : List Glyph) : Option (Token × List Glyph) :=
  let gs := dropBlanks gs
  if !gs.head?.any (·.char == '!') then none
  else
    let (handle, rest) := name (gs.drop 1)
    let handle := if rest.head?.any (·.char == '!') then '!' :: handle ++ ['!'] else '!' :: handle
    let rest := if rest.head?.any (·.char == '!') then rest.drop 1 else rest
    if 1 < handle.length && handle.getLast? != some '!' then none
    else if !rest.head?.any (fun g => isBlank g.char) then none
    else
      let (lead, rest) := tagText (dropBlanks rest)
      if lead.isEmpty || !atGap rest then none else some (.tagDirective handle lead, rest)

/-- A directive at the start of a line, behind its percent sign. Nothing but a comment may follow it. -/
def directive? (s : State) : Option State := do
  let s ← s.closeBlocks?
  let (word, rest) := name (s.rest.drop 1)
  let (token, rest) ←
    if word == "YAML".toList then version? rest
    else if word == "TAG".toList then tagDirective? rest
    else none
  let rest := dropBlanks rest
  let rest := if rest.head?.any (·.char == '#') then rest.dropWhile fun g => !isBreak g.char else rest
  if atLineEnd rest then return { s.push token with rest := rest.drop 1 } else none

/-! ### Reading all tokens -/

/-- Passes over blanks, comments and line breaks. A tab is no blank where a key may start in a block.
Outside flow collections a key may start on a new line. -/
def skipGap (inFlow : Bool) : (inComment keyAllowed : Bool) → List Glyph → Bool × List Glyph
  | _, keyAllowed, [] => (keyAllowed, [])
  | inComment, keyAllowed, g :: gs =>
    if isBreak g.char then skipGap inFlow false (keyAllowed || !inFlow) gs
    else if inComment then skipGap inFlow true keyAllowed gs
    else if g.char == '#' then skipGap inFlow true keyAllowed gs
    else if g.char == ' ' || (g.char == '\t' && (inFlow || !keyAllowed)) ||
        (g.char == byteOrderMark && g.column == 0) then
      skipGap inFlow false keyAllowed gs
    else (keyAllowed, g :: gs)

/-- The marks that cannot start a plain scalar, and the tab, which is left only where it must not
stand. -/
def indicators : List Char := "-?:,[]\x7b\x7d#&*!|>%@\x60\t".toList ++ [singleQuote, doubleQuote]

/-- Whether `g`, followed by `rest`, starts a plain scalar. -/
def startsPlain (s : State) (g : Glyph) (rest : List Glyph) : Bool :=
  !indicators.contains g.char ||
    (g.char == '-' && !rest.head?.any (fun h => isBlank h.char)) ||
    (!s.inFlow && (g.char == '?' || g.char == ':') && !atGap rest)

/-- Reads the token that starts with `g`. -/
def next? (s : State) (g : Glyph) (rest : List Glyph) : Option State :=
  let c := g.char
  if g.column == 0 && c == '%' then s.directive?
  else if atTriple '-' s.rest then (s.closeBlocks?).map (·.take 3 .documentStart)
  else if atTriple '.' s.rest then (s.closeBlocks?).map (·.take 3 .documentEnd)
  else if c == '[' then s.flowStart? g .flowSequenceStart
  else if c == '\x7b' then s.flowStart? g .flowMappingStart
  else if c == ']' then s.flowEnd? .flowSequenceEnd
  else if c == '\x7d' then s.flowEnd? .flowMappingEnd
  else if c == ',' then s.comma?
  else if c == '-' && atGap rest then s.hyphen?
  else if c == '?' && (s.inFlow || atGap rest) then s.explicitKey?
  else if c == ':' && (s.inFlow || atGap rest) then s.value? g
  else if c == '*' then s.reference? g .alias
  else if c == '&' then s.reference? g .anchor
  else if c == '!' then s.tag? g
  else if c == '|' && !s.inFlow then s.blockScalar? true
  else if c == '>' && !s.inFlow then s.blockScalar? false
  else if c == singleQuote then s.quotedScalar? g true
  else if c == doubleQuote then s.quotedScalar? g false
  else if s.startsPlain g rest then s.plain? g
  else none

/-- Reads all tokens; `fuel` is more than the number of characters. -/
def readAll : (fuel : Nat) → State → List Token
  | 0, s => (s.push .fault).tokens.reverse
  | fuel + 1, s =>
    let (keyAllowed, rest) := skipGap s.inFlow false s.keyAllowed s.rest
    let s := { s with rest := rest, keyAllowed := keyAllowed }
    match rest with
    | [] =>
      match s.closeBlocks? with
      | some s => (s.push .streamEnd).tokens.reverse
      | none => (s.push .fault).tokens.reverse
    | g :: gs =>
      let s := unroll g.column s.outer s
      match s.next? g gs with
      | some s => readAll fuel s
      | none => (s.push .fault).tokens.reverse

end State

/-- The tokens of placed characters. -/
def ofGlyphs (gs : List Glyph) : List Token :=
  State.readAll (gs.length + 1) ⟨gs, [], -1, [], true, [none]⟩

end Token

end Yaml

end EmphasisSpacing
