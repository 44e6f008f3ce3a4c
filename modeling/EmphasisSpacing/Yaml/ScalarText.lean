import EmphasisSpacing.Yaml.Glyph

/-!
# The text of scalars

Reading the three kinds of scalars: plain ones, quoted ones and blocks. Inside plain and quoted scalars a
line break is folded: it becomes a space, or the further line breaks that follow it.
-/

namespace EmphasisSpacing

namespace Yaml

/-! ### Gaps -/

/-- The blanks and line breaks between two words of a scalar. -/
structure Gap where
  /-- The blanks before the first line break, backwards. -/
  blanks : List Char
  /-- The first line break, if there was one: `some none` if it was escaped. -/
  first : Option (Option Char)
  /-- The further line breaks, backwards. -/
  more : List Char
  deriving DecidableEq, Repr

namespace Gap

/-- No gap. -/
def empty : Gap := ⟨[], none, []⟩

/-- The gap behind an escaped line break. -/
def escaped : Gap := ⟨[], some none, []⟩

/-- Whether there is no gap. -/
def isEmpty (g : Gap) : Bool := g.blanks.isEmpty && g.first.isNone

/-- Whether the gap holds a line break. -/
def isBroken (g : Gap) : Bool := g.first.isSome

/-- The gap with one more blank. Blanks at the start of a line do not count. -/
def pushBlank (g : Gap) (c : Char) : Gap := if g.isBroken then g else { g with blanks := c :: g.blanks }

/-- The gap with one more line break. -/
def pushBreak (g : Gap) (c : Char) : Gap :=
  if g.isBroken then { g with more := c :: g.more } else ⟨[], some (some c), []⟩

/-- What the gap stands for. -/
def text (g : Gap) : List Char :=
  match g.first with
  | none => g.blanks.reverse
  | some none => g.more.reverse
  | some (some c) =>
    if c == '\n' then (if g.more.isEmpty then [' '] else g.more.reverse) else c :: g.more.reverse

end Gap

/-! ### Plain scalars -/

/-- Whether a character, followed by `rest`, ends a plain scalar. -/
def endsPlain (inFlow : Bool) (c : Char) (rest : List Glyph) : Bool :=
  (c == ':' && atGap rest) || (inFlow && [',', '?', '[', ']', '\x7b', '\x7d'].contains c)

/-- Reads on in a plain scalar: its text so far is `acc`, backwards, and then came `gap`. Outside flow
collections it ends at a line that starts before column `indent`; a tab must not stand there. The results
are the text, whether a line break follows it, and the rest. -/
def plainFrom (inFlow : Bool) (indent : Int) : (acc : List Char) → Gap → List Glyph →
    Option (List Char × Bool × List Glyph)
  | acc, gap, [] => some (acc.reverse, gap.isBroken, [])
  | acc, gap, g :: gs =>
    if isBlank g.char then
      if gap.isBroken && g.column < indent && g.char == '\t' then none
      else plainFrom inFlow indent acc (gap.pushBlank g.char) gs
    else if isBreak g.char then plainFrom inFlow indent acc (gap.pushBreak g.char) gs
    else
      let stops := !gap.isEmpty &&
        ((!inFlow && g.column < indent) || atDocumentMark (g :: gs) || g.char == '#')
      if stops || endsPlain inFlow g.char gs then some (acc.reverse, gap.isBroken, g :: gs)
      else plainFrom inFlow indent (g.char :: gap.text.reverse ++ acc) .empty gs

/-! ### Quoted scalars -/

/-- The single quote. -/
def singleQuote : Char := Char.ofNat 0x27

/-- The double quote. -/
def doubleQuote : Char := Char.ofNat 0x22

/-- The value of a hexadecimal digit. -/
def hexValue? (c : Char) : Option Nat :=
  if '0' ≤ c && c ≤ '9' then some (c.toNat - '0'.toNat)
  else if 'a' ≤ c && c ≤ 'f' then some (c.toNat - 'a'.toNat + 10)
  else if 'A' ≤ c && c ≤ 'F' then some (c.toNat - 'A'.toNat + 10)
  else none

/-- The number of `k` hexadecimal digits, and what follows them. -/
def hexNumber? : (k acc : Nat) → List Glyph → Option (Nat × List Glyph)
  | 0, acc, gs => some (acc, gs)
  | _ + 1, _, [] => none
  | k + 1, acc, g :: gs =>
    match hexValue? g.char with
    | some d => hexNumber? k (acc * 16 + d) gs
    | none => none

/-- The characters with an escape of their own. -/
def shortEscapes : List (Char × Nat) :=
  [('0', 0), ('a', 7), ('b', 8), ('t', 9), ('\t', 9), ('n', 10), ('v', 11), ('f', 12), ('r', 13),
    ('e', 0x1B), (' ', 0x20), (doubleQuote, 0x22), (singleQuote, 0x27), ('/', 0x2F), ('\\', 0x5C),
    ('N', 0x85), ('_', 0xA0), ('L', 0x2028), ('P', 0x2029)]

/-- The number of hexadecimal digits behind an escape. -/
def escapeLength? (c : Char) : Option Nat :=
  if c == 'x' then some 2 else if c == 'u' then some 4 else if c == 'U' then some 8 else none

/-- The character of an escape that goes on with `c` and `gs` after the backslash, and what follows. -/
def escapeChar? (c : Char) (gs : List Glyph) : Option (Char × List Glyph) :=
  match shortEscapes.lookup c with
  | some n => some (Char.ofNat n, gs)
  | none => do
    let k ← escapeLength? c
    let (n, gs) ← hexNumber? k 0 gs
    if n.isValidChar then some (Char.ofNat n, gs) else none

/-- Reads on in a quoted scalar behind its opening quote, like `plainFrom`; `fuel` is more than what is
left. -/
def quotedFrom (single : Bool) : (fuel : Nat) → (acc : List Char) → Gap → List Glyph →
    Option (List Char × List Glyph)
  | 0, _, _, _ => none
  | _, _, _, [] => none
  | fuel + 1, acc, gap, g :: gs =>
    if isBlank g.char then quotedFrom single fuel acc (gap.pushBlank g.char) gs
    else if isBreak g.char then quotedFrom single fuel acc (gap.pushBreak g.char) gs
    else if atDocumentMark (g :: gs) then none
    else
      let acc := gap.text.reverse ++ acc
      if single && g.char == singleQuote then
        match gs with
        | h :: rest =>
          if h.char == singleQuote then quotedFrom single fuel (singleQuote :: acc) .empty rest
          else some (acc.reverse, gs)
        | [] => some (acc.reverse, [])
      else if !single && g.char == doubleQuote then some (acc.reverse, gs)
      else if !single && g.char == '\\' then
        match gs with
        | [] => none
        | h :: rest =>
          if isBreak h.char then quotedFrom single fuel acc .escaped rest
          else match escapeChar? h.char rest with
            | some (c, rest) => quotedFrom single fuel (c :: acc) .empty rest
            | none => none
      else quotedFrom single fuel (g.char :: acc) .empty gs

/-- The text of a quoted scalar, and what follows it. -/
def quoted? (single : Bool) (gs : List Glyph) : Option (List Char × List Glyph) :=
  quotedFrom single (gs.length + 1) [] .empty gs

/-! ### Block scalars -/

/-- What becomes of the line breaks at the end of a block. -/
inductive Chomping where
  | clip
  | strip
  | keep
  deriving DecidableEq, Repr

/-- The chomping that a sign asks for. -/
def chomping? (c : Char) : Option Chomping :=
  if c == '+' then some .keep else if c == '-' then some .strip else none

/-- The indentation that a digit asks for; 0 if there is none, and nothing for the digit 0. -/
def increment? (gs : List Glyph) : Option (Nat × List Glyph) :=
  match gs with
  | g :: rest =>
    if g.char == '0' then none
    else if '1' ≤ g.char && g.char ≤ '9' then some (g.char.toNat - '0'.toNat, rest)
    else some (0, gs)
  | [] => some (0, [])

/-- The chomping and the indentation that stand behind the sign of a block, in any order. -/
def blockHeader? (gs : List Glyph) : Option (Chomping × Nat × List Glyph) :=
  match gs.head?.bind fun g => chomping? g.char with
  | some c => (increment? (gs.drop 1)).map fun (n, rest) => (c, n, rest)
  | none => do
    let (n, rest) ← increment? gs
    match rest.head?.bind fun g => chomping? g.char with
    | some c => some (c, n, rest.drop 1)
    | none => some (.clip, n, rest)

/-- The rest of a text behind blanks, a comment and a line break; nothing when anything else comes
first. -/
def afterHeader? (gs : List Glyph) : Option (List Glyph) :=
  let gs := gs.dropWhile fun g => isBlank g.char
  let gs := if gs.head?.any (·.char == '#') then gs.dropWhile fun g => !isBreak g.char else gs
  if atLineEnd gs then some (gs.drop 1) else none

/-- Passes over indentation and empty lines of a block. An `indent` of 0 is not known yet. The results are
the line breaks, the widest column, and the rest. -/
def blockBreaks (indent : Nat) : (widest : Nat) → (breaks : List Char) → List Glyph →
    Option (List Char × Nat × List Glyph)
  | widest, breaks, [] => some (breaks.reverse, widest, [])
  | widest, breaks, g :: gs =>
    let inside := indent == 0 || g.column < indent
    if inside && g.char == ' ' then blockBreaks indent widest breaks gs
    else
      let widest := max widest g.column
      if inside && g.char == '\t' then none
      else if isBreak g.char then blockBreaks indent widest (g.char :: breaks) gs
      else some (breaks.reverse, widest, g :: gs)

/-- Reads the lines of a block that start at column `indent`. The text so far is `acc`, backwards; then
came the line break `last` and the empty lines `empties`; `wasBlank` tells whether the line before
started with a blank. -/
def blockLines (literal : Bool) (chomping : Chomping) (indent : Nat) : (fuel : Nat) →
    (acc last empties : List Char) → (wasBlank : Bool) → List Glyph →
    Option (List Char × List Glyph)
  | 0, _, _, _, _, _ => none
  | fuel + 1, acc, last, empties, wasBlank, gs =>
    if gs.isEmpty || columnOf gs != indent then
      let tail := match chomping with
        | .strip => []
        | .clip => last
        | .keep => last ++ empties
      some (acc.reverse ++ tail, gs)
    else
      let isBlankLine := gs.head?.any fun g => isBlank g.char
      let folds := !literal && !wasBlank && !isBlankLine && last == ['\n']
      let joint := if folds then (if empties.isEmpty then [' '] else []) else last
      let (line, rest) := gs.span fun g => !isBreak g.char
      let acc := (line.map Glyph.char).reverse ++ empties.reverse ++ joint.reverse ++ acc
      match rest with
      | [] => blockLines literal chomping indent fuel acc [] [] isBlankLine []
      | b :: rest =>
        match blockBreaks indent 0 [] rest with
        | none => none
        | some (empties, _, rest) =>
          blockLines literal chomping indent fuel acc [b.char] empties isBlankLine rest

/-- The text of a block behind its sign, inside a collection of the given indentation, and what
follows it. -/
def block? (literal : Bool) (parent : Int) (gs : List Glyph) : Option (List Char × List Glyph) := do
  let (chomping, increment, gs) ← blockHeader? gs
  let gs ← afterHeader? gs
  let known := if increment == 0 then 0 else ((max parent 0) + increment).toNat
  let (empties, widest, rest) ← blockBreaks known 0 [] gs
  let indent := if known == 0 then max widest (max 1 (parent + 1).toNat) else known
  blockLines literal chomping indent (gs.length + 2) [] [] empties false rest

end Yaml

end EmphasisSpacing
