import EmphasisSpacing.Text.Base64
import EmphasisSpacing.Text.Integer
import EmphasisSpacing.Yaml.Decimal
import EmphasisSpacing.Yaml.Node

/-!
# Values

What the nodes of a YAML text stand for, as far as a switch can tell: of numbers it matters only whether
they are zero, and of collections only what they are.

A plain scalar without a tag tells its own type: words for truth values and for nothing, whole numbers,
fractions, dates, and all else is text. The tag of one of these types has to agree with that; any other tag
makes the scalar a text.

A document can be well formed and still have no value: a mapping must not have a key twice, and a tag must
fit.
-/

namespace EmphasisSpacing

namespace Yaml

/-- What a node stands for. -/
inductive Value where
  | null
  | bool (b : Bool)
  | integer (isZero : Bool)
  | float (isZero : Bool)
  | text (s : Bytes)
  | date
  | list
  | map
  deriving DecidableEq, Repr

/-- The tag of a value, in short form. -/
def Value.tag : Value → String
  | .null => "!!null"
  | .bool _ => "!!bool"
  | .integer _ => "!!int"
  | .float _ => "!!float"
  | .text _ => "!!str"
  | .date => "!!timestamp"
  | .list => "!!seq"
  | .map => "!!map"

/-! ### Scalars -/

/-- The plain scalars that have a meaning of their own. -/
def words : List (String × Value) :=
  [("true", .bool true), ("True", .bool true), ("TRUE", .bool true),
    ("false", .bool false), ("False", .bool false), ("FALSE", .bool false),
    ("", .null), ("~", .null), ("null", .null), ("Null", .null), ("NULL", .null),
    (".nan", .float false), (".NaN", .float false), (".NAN", .float false),
    (".inf", .float false), (".Inf", .float false), (".INF", .float false),
    ("+.inf", .float false), ("+.Inf", .float false), ("+.INF", .float false),
    ("-.inf", .float false), ("-.Inf", .float false), ("-.INF", .float false)]

/-- A whole number without a sign, whose beginning tells its base, up to 2^64. -/
def unsigned? (s : Bytes) : Option Value :=
  let (base, digits) := Integer.splitBase s
  match Integer.magnitude base 0 digits with
  | .ok n => if digits.isEmpty then none else some (.integer (n == 0))
  | .error _ => none

/-- A whole number with its sign behind the beginning that tells its base, which is `0b` or `0o`. -/
def signBehindBase? (s : Bytes) : Option Value :=
  let signed (base : Nat) (rest : Bytes) : Option Value :=
    let (isNegative, digits) := Integer.splitSign rest
    match Integer.magnitude base 0 digits with
    | .ok n =>
      let v : Int := if isNegative then -n else n
      if digits.isEmpty || !Integer.fits v then none else some (.integer (n == 0))
    | .error _ => none
  match s with
  | 0x30 :: 0x62 :: rest => signed 2 rest
  | 0x30 :: 0x6F :: rest => signed 8 rest
  | _ => none

/-- A whole number. Its beginning tells its base, and its sign comes before or after that. -/
def integer? (s : Bytes) : Option Value :=
  match Integer.read s with
  | .ok n => some (.integer (n == 0))
  | .error _ =>
    if s.head?.all Bytes.isDigit then (unsigned? s).or (signBehindBase? s) else none

/-- The number that a text is, if it is one. Underscores in it do not count; behind a point at the
beginning, they have to separate digits. -/
def number? (cs : List Char) : Option Value :=
  if cs.head? == some '.' then
    if separatesDigits false cs then (floatIsZero? (cs.filter (· != '_'))).map .float else none
  else if cs.head?.any fun c => c.isDigit || c == '+' || c == '-' then
    let digits := cs.filter (· != '_')
    (integer? (Utf8.encode digits)).or ((floatIsZero? digits).map .float)
  else none

/-- What a plain scalar without a tag stands for. -/
def plainValue (cs : List Char) : Value :=
  match words.lookup (String.ofList cs) with
  | some v => v
  | none =>
    if isDate cs then .date
    else (number? cs).getD (.text (Utf8.encode cs))

/-- The tags of the types that a plain scalar can tell, without that of texts. -/
def typeTags : List (List Char) :=
  ["!!null", "!!bool", "!!int", "!!float", "!!timestamp"].map String.toList

/-- What a scalar stands for; nothing when its tag does not fit. -/
def Scalar.value? (s : Scalar) : Option Value :=
  match s.tag with
  | none => some (if s.isPlain then plainValue s.text else .text (Utf8.encode s.text))
  | some tag =>
    if tag == "!!binary".toList then (Base64.decode? (Utf8.encode s.text)).map .text
    else if !typeTags.contains tag then some (.text (Utf8.encode s.text))
    else
      let v := plainValue s.text
      if v.tag.toList == tag then some v
      else match v with
        | .integer isZero => if tag == "!!float".toList then some (.float isZero) else none
        | _ => none

/-! ### Collections -/

namespace Node

/-- The kind and the text of a key: what must not be there twice. -/
def keyText : Node → Nat × List Char
  | .scalar s => (0, s.text)
  | .sequence _ => (1, [])
  | .mapping _ => (2, [])

/-- Whether all keys of a mapping are different. -/
def hasUniqueKeys (entries : List (Node × Node)) : Bool :=
  ((entries.map fun e => keyText e.1).eraseDups).length == entries.length

/-- What a node stands for as a key; nothing for a collection. -/
def keyValue? : Node → Option Value
  | .scalar s => s.value?
  | _ => none

/-- The name that a node is as a key: the text that it stands for, and anything else as written. Null and
collections are no names. -/
def name? : Node → Option Bytes
  | .scalar s =>
    match s.value? with
    | none | some .null => none
    | some (.text t) => some t
    | some _ => some (Utf8.encode s.text)
  | _ => none

/-- Whether a key asks to take over the entries of other mappings. -/
def isMerge : Node → Bool
  | .scalar s =>
    s.text == "<<".toList && ((s.isPlain && s.tag.isNone) || s.tag == some "!!merge".toList)
  | _ => false

/-- The mappings that are to be taken over: a mapping or each mapping of a sequence; nothing for anything
else. -/
def mergedMappings? : Node → Option (List (List (Node × Node)))
  | .mapping entries => some [entries]
  | .sequence items =>
    items.mapM fun n => match n with
      | .mapping entries => some entries
      | _ => none
  | .scalar _ => none

/-- What a node stands for; nothing when something in it has no value. `depth` is more than the depth of
the node. -/
def value? : (depth : Nat) → Node → Option Value
  | 0, _ => none
  | _ + 1, .scalar s => s.value?
  | depth + 1, .sequence items =>
    if items.all fun n => (value? depth n).isSome then some .list else none
  | depth + 1, .mapping entries =>
    if hasUniqueKeys entries &&
        entries.all fun e => (keyValue? e.1).isSome && (value? depth e.2).isSome &&
          (!isMerge e.1 || (mergedMappings? e.2).isSome) then
      some .map
    else none

/-- The entries of a mapping, its own ones first and then those that it takes over; nothing when a mapping
has a key twice. `depth` is more than the depth of the mapping. -/
def allEntries? : (depth : Nat) → List (Node × Node) → Option (List (Node × Node))
  | 0, _ => none
  | depth + 1, entries => do
    if !hasUniqueKeys entries then none
    else
      let mappings ← (entries.filter fun e => isMerge e.1).mapM fun e => mergedMappings? e.2
      let merged ← mappings.flatten.mapM (allEntries? depth)
      return (entries.filter fun e => !isMerge e.1) ++ merged.flatten

end Node

end Yaml

end EmphasisSpacing
