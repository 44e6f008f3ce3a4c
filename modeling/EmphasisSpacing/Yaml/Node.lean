import EmphasisSpacing.Yaml.Token

/-!
# Nodes

The tree that a YAML text describes: scalars, sequences and mappings. Tokens are read by the grammar of
the format, one function for each kind of collection, which goes on as long as there are entries. An alias
is replaced by the node that it names.
-/

namespace EmphasisSpacing

namespace Yaml

/-- A scalar as written. -/
structure Scalar where
  /-- The tag, in its short form, unless the text itself has to tell the type. -/
  tag : Option (List Char)
  /-- Whether it is neither quoted nor a block. -/
  isPlain : Bool
  text : List Char
  deriving DecidableEq, Repr

/-- A tree of a YAML text. -/
inductive Node where
  | scalar (s : Scalar)
  | sequence (items : List Node)
  | mapping (entries : List (Node × Node))
  deriving Repr

namespace Node

/-! ### The state of reading -/

/-- The state of reading nodes. -/
structure State where
  tokens : List Token
  /-- The nodes with an anchor, the latest first. -/
  anchors : List (List Char × Node)
  /-- What the handles of tags stand for. -/
  handles : List (List Char × List Char)

/-- The state behind the next token. -/
def State.skip (s : State) : State := { s with tokens := s.tokens.drop 1 }

/-- The address that all common tags start with. -/
def commonTag : List Char := "tag:yaml.org,2002:".toList

/-- The handles that need no directive. -/
def standardHandles : List (List Char × List Char) :=
  [(['!'], ['!']), (['!', '!'], commonTag)]

/-- A tag in its short form. -/
def shortTag (tag : List Char) : List Char :=
  if commonTag.isPrefixOf tag then '!' :: '!' :: tag.drop commonTag.length else tag

/-- What stands in front of a node. -/
structure Properties where
  anchor : Option (List Char)
  tag : Option (List Char)

/-- The tag that a handle and a rest give; nothing when the handle is unknown. -/
def State.fullTag? (s : State) (handle suffix : List Char) : Option (List Char) :=
  if handle.isEmpty then some suffix else (s.handles.lookup handle).map (· ++ suffix)

/-- An anchor and a tag, in any order. -/
def State.properties? (s : State) : Option (Properties × State) :=
  match s.tokens with
  | .anchor a :: .tag h t :: rest =>
    (s.fullTag? h t).map fun tag => (⟨some a, some tag⟩, { s with tokens := rest })
  | .anchor a :: rest => some (⟨some a, none⟩, { s with tokens := rest })
  | .tag h t :: .anchor a :: rest =>
    (s.fullTag? h t).map fun tag => (⟨some a, some tag⟩, { s with tokens := rest })
  | .tag h t :: rest =>
    (s.fullTag? h t).map fun tag => (⟨none, some tag⟩, { s with tokens := rest })
  | _ => some (⟨none, none⟩, s)

/-- The state after the node of an anchor is known. -/
def State.define (s : State) (anchor : Option (List Char)) (n : Node) : State :=
  match anchor with
  | some a => { s with anchors := (a, n) :: s.anchors }
  | none => s

/-- The tag of a scalar, in short form. The tag `!` says no more than none. -/
def scalarTag (tag : Option (List Char)) : Option (List Char) :=
  match tag with
  | some t => if t == ['!'] then none else some (shortTag t)
  | none => none

/-- A scalar without any text. -/
def emptyScalar (p : Properties) : Node := .scalar ⟨scalarTag p.tag, true, []⟩

/-- The value that is missing. -/
def missing : Node := emptyScalar ⟨none, none⟩

/-! ### The grammar -/

mutual

/-- Reads a node. Collections in block style are allowed if `block`, and a sequence without an indentation
of its own if `indentless`. All functions here have an amount of fuel that is more than four times the
number of tokens that are left. -/
def node? : (fuel : Nat) → (block indentless : Bool) → State → Option (Node × State)
  | 0, _, _, _ => none
  | fuel + 1, block, indentless, s =>
    match s.tokens with
    | .alias name :: _ => (s.anchors.lookup name).map fun n => (n, s.skip)
    | _ => do
      let (p, s) ← s.properties?
      let (n, s) ← content? fuel block indentless p s
      return (n, s.define p.anchor n)

/-- Reads a node behind its properties. -/
def content? : (fuel : Nat) → (block indentless : Bool) → Properties → State → Option (Node × State)
  | 0, _, _, _, _ => none
  | fuel + 1, block, indentless, p, s =>
    match s.tokens, block, indentless with
    | .blockEntry :: _, _, true => indentlessEntries? fuel [] s
    | .scalar isPlain text :: _, _, _ => some (.scalar ⟨scalarTag p.tag, isPlain, text⟩, s.skip)
    | .flowSequenceStart :: _, _, _ => flowItems? fuel true [] s.skip
    | .flowMappingStart :: _, _, _ => flowEntries? fuel true [] s.skip
    | .blockSequenceStart :: _, true, _ => blockItems? fuel [] s.skip
    | .blockMappingStart :: _, true, _ => blockEntries? fuel [] s.skip
    | _, _, _ => if p.anchor.isSome || p.tag.isSome then some (emptyScalar p, s) else none

/-- Reads on in a block sequence; the items so far are given backwards. -/
def blockItems? : (fuel : Nat) → (items : List Node) → State → Option (Node × State)
  | 0, _, _ => none
  | fuel + 1, items, s =>
    match s.tokens with
    | .blockEntry :: .blockEntry :: _ | .blockEntry :: .blockEnd :: _ =>
      blockItems? fuel (missing :: items) s.skip
    | .blockEntry :: _ => do
      let (n, s) ← node? fuel true false s.skip
      blockItems? fuel (n :: items) s
    | .blockEnd :: _ => some (.sequence items.reverse, s.skip)
    | _ => none

/-- Reads on in a block sequence without an indentation of its own, which ends without a token. -/
def indentlessEntries? : (fuel : Nat) → (items : List Node) → State → Option (Node × State)
  | 0, _, _ => none
  | fuel + 1, items, s =>
    match s.tokens with
    | .blockEntry :: .blockEntry :: _ | .blockEntry :: .key :: _ | .blockEntry :: .value :: _
    | .blockEntry :: .blockEnd :: _ => indentlessEntries? fuel (missing :: items) s.skip
    | .blockEntry :: _ => do
      let (n, s) ← node? fuel true false s.skip
      indentlessEntries? fuel (n :: items) s
    | _ => some (.sequence items.reverse, s)

/-- Reads on in a block mapping; the entries so far are given backwards. -/
def blockEntries? : (fuel : Nat) → (entries : List (Node × Node)) → State → Option (Node × State)
  | 0, _, _ => none
  | fuel + 1, entries, s =>
    match s.tokens with
    | .key :: _ => do
      let (k, s) ← blockPart? fuel s.skip
      match s.tokens with
      | .value :: _ =>
        let (v, s) ← blockPart? fuel s.skip
        blockEntries? fuel ((k, v) :: entries) s
      | _ => blockEntries? fuel ((k, missing) :: entries) s
    | .blockEnd :: _ => some (.mapping entries.reverse, s.skip)
    | _ => none

/-- Reads the key or the value of an entry in a block mapping, which may be missing. -/
def blockPart? : (fuel : Nat) → State → Option (Node × State)
  | 0, _ => none
  | fuel + 1, s =>
    match s.tokens with
    | .key :: _ | .value :: _ | .blockEnd :: _ => some (missing, s)
    | _ => node? fuel true true s

/-- Reads on in a flow sequence. -/
def flowItems? : (fuel : Nat) → (isFirst : Bool) → (items : List Node) → State →
    Option (Node × State)
  | 0, _, _, _ => none
  | fuel + 1, isFirst, items, s =>
    match s.tokens, isFirst with
    | .flowSequenceEnd :: _, _ => some (.sequence items.reverse, s.skip)
    | .flowEntry :: .flowSequenceEnd :: _, false =>
      some (.sequence items.reverse, s.skip.skip)
    | .flowEntry :: _, false => do
      let (n, s) ← flowItem? fuel s.skip
      flowItems? fuel false (n :: items) s
    | _, true => do
      let (n, s) ← flowItem? fuel s
      flowItems? fuel false (n :: items) s
    | _, false => none

/-- Reads an item of a flow sequence: a node, or a mapping with a single entry. -/
def flowItem? : (fuel : Nat) → State → Option (Node × State)
  | 0, _ => none
  | fuel + 1, s =>
    match s.tokens with
    | .key :: .value :: _ | .key :: .flowEntry :: _ | .key :: .flowSequenceEnd :: _ => do
      let (v, s) ← flowPart? fuel s.skip.skip
      return (.mapping [(missing, v)], s)
    | .key :: _ => do
      let (k, s) ← node? fuel false false s.skip
      let (v, s) ← flowPart? fuel s
      return (.mapping [(k, v)], s)
    | _ => node? fuel false false s

/-- Reads the value of an entry in a flow collection, which may be missing. -/
def flowPart? : (fuel : Nat) → State → Option (Node × State)
  | 0, _ => none
  | fuel + 1, s =>
    match s.tokens with
    | .value :: .flowEntry :: _ | .value :: .flowSequenceEnd :: _ | .value :: .flowMappingEnd :: _ =>
      some (missing, s.skip)
    | .value :: _ => node? fuel false false s.skip
    | _ => some (missing, s)

/-- Reads on in a flow mapping. -/
def flowEntries? : (fuel : Nat) → (isFirst : Bool) → (entries : List (Node × Node)) → State →
    Option (Node × State)
  | 0, _, _, _ => none
  | fuel + 1, isFirst, entries, s =>
    match s.tokens, isFirst with
    | .flowMappingEnd :: _, _ => some (.mapping entries.reverse, s.skip)
    | .flowEntry :: .flowMappingEnd :: _, false => some (.mapping entries.reverse, s.skip.skip)
    | .flowEntry :: _, false => do
      let (e, s) ← flowPair? fuel s.skip
      flowEntries? fuel false (e :: entries) s
    | _, true => do
      let (e, s) ← flowPair? fuel s
      flowEntries? fuel false (e :: entries) s
    | _, false => none

/-- Reads an entry of a flow mapping. A node without the mark of a key is a key without a value. -/
def flowPair? : (fuel : Nat) → State → Option ((Node × Node) × State)
  | 0, _ => none
  | fuel + 1, s =>
    match s.tokens with
    | .key :: .value :: _ | .key :: .flowEntry :: _ | .key :: .flowMappingEnd :: _ => do
      let (v, s) ← flowPart? fuel s.skip
      return ((missing, v), s)
    | .key :: _ => do
      let (k, s) ← node? fuel false false s.skip
      let (v, s) ← flowPart? fuel s
      return ((k, v), s)
    | _ => do
      let (k, s) ← node? fuel false false s
      return ((k, missing), s)

end

/-! ### Documents -/

/-- Reads the directives in front of a document, of which the handles so far are given. Only one version
can be read, and given only once. The results are the handles and the rest. -/
def directives? : (hasVersion : Bool) → (handles : List (List Char × List Char)) → List Token →
    Option (List (List Char × List Char) × List Token)
  | hasVersion, handles, .version major minor :: rest =>
    if hasVersion || major != 1 || minor != 1 then none else directives? true handles rest
  | hasVersion, handles, .tagDirective handle lead :: rest =>
    if (handles.lookup handle).isSome then none
    else directives? hasVersion ((handle, lead) :: handles) rest
  | _, handles, tokens => some (handles ++ standardHandles, tokens)

/-- How many tokens are read ahead. -/
def lookAhead : Nat := 3

/-- Whether the tokens that are read ahead of the end of a document are in order. -/
def endsWell (s : State) : Bool := !(s.tokens.take lookAhead).contains .fault

/-- The root node behind the start of a document, which may be missing. -/
def root? (s : State) : Option Node := do
  let (n, s) ←
    match s.tokens with
    | .version _ _ :: _ | .tagDirective _ _ :: _ | .documentStart :: _ | .documentEnd :: _
    | .streamEnd :: _ => some (missing, s)
    | _ => node? (4 * s.tokens.length + 4) true false s
  if endsWell s then some n else none

/-- The first document among tokens: `some none` if there is none, and nothing if it is not well
formed. -/
def ofTokens? (tokens : List Token) : Option (Option Node) :=
  match tokens with
  | .streamEnd :: _ => some none
  | .version _ _ :: _ | .tagDirective _ _ :: _ | .documentStart :: _ => do
    let (handles, rest) ← directives? false [] tokens
    match rest with
    | .documentStart :: rest => (root? ⟨rest, [], handles⟩).map some
    | _ => none
  | .documentEnd :: _ => none
  | _ => (root? ⟨tokens, [], standardHandles⟩).map some

/-- The first document of a text, like `ofTokens?`. -/
def ofText? (s : Bytes) : Option (Option Node) := do
  let gs ← glyphs? s
  ofTokens? (Token.ofGlyphs gs)

end Node

end Yaml

end EmphasisSpacing
