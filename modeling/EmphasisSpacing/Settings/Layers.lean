import EmphasisSpacing.Settings.Keeper
import EmphasisSpacing.Text.LowerCase
import EmphasisSpacing.Text.Truth
import EmphasisSpacing.Yaml.Value

/-!
# Layers of settings

The standard keeper. A value can be given in four places. The flag wins, then the variable of the
environment unless it is empty, then the settings file unless it says null, and at last the standard. Only
the winner is converted to a truth value, so that a value that cannot be converted does no harm where
another one wins. A settings file is a YAML mapping.
-/

namespace EmphasisSpacing

/-- The layers from which values are taken. -/
structure Layers where
  registrations : List Registration
  env : Environment
  file : Entries Yaml.Value
  deriving Repr

namespace Layers

/-! ### Looking up -/

/-- A character without case. The long s (U+017F) is an s as well. -/
def foldChar (c : Char) : Char := if c.toNat == 0x17F then 's' else LowerCase.ofChar c

/-- A name without case. -/
def fold (name : Bytes) : Bytes := Utf8.encode ((Utf8.decode name).map foldChar)

/-- Whether two names differ by case only. -/
def sameName (a b : Bytes) : Bool := fold a == fold b

/-- The value of the flag for a name: of several, the last. -/
def flag? (l : Layers) (name : Bytes) : Option Bool :=
  l.registrations.reverse.findSome? fun r =>
    match r with
    | .bindFlag key b => if sameName key name then some b else none
    | _ => none

/-- The value of the first variable for a name that is not empty. -/
def word? (l : Layers) (name : Bytes) : Option Bytes :=
  l.registrations.findSome? fun r =>
    match r with
    | .bindVariable key v =>
      if sameName key name && !(l.env.get v).isEmpty then some (l.env.get v) else none
    | _ => none

/-- The value of the file for a name; null counts as none. -/
def entry? (l : Layers) (name : Bytes) : Option Yaml.Value :=
  (l.file.find? fun e => sameName e.1 name).bind Prod.snd

/-- The standard for a name: of several, the last. -/
def standard? (l : Layers) (name : Bytes) : Option Bool :=
  l.registrations.reverse.findSome? fun r =>
    match r with
    | .standard key b => if sameName key name then some b else none
    | _ => none

/-- The value of the highest layer that gives one. -/
def raw? (l : Layers) (name : Bytes) : Option (Raw Yaml.Value) :=
  ((l.flag? name).map .truth).or <| ((l.word? name).map .word).or <|
    ((l.entry? name).map .value).or <| (l.standard? name).map .truth

/-! ### Conversion -/

/-- The words for a value of a type that is no truth value. -/
def wrongType (type : String) : Bytes :=
  bytes "expected type 'bool', got unconvertible type '" ++ bytes type ++ bytes "'"

/-- A word as a truth value; no word at all is false. -/
def ofWord (s : Bytes) : Except Bytes Bool :=
  match Truth.read? s with
  | some b => .ok b
  | none =>
    if s.isEmpty then .ok false
    else .error (bytes "cannot parse value as 'bool': strconv.ParseBool: invalid syntax")

/-- A value of a settings file as a truth value: numbers are true unless they are zero. -/
def ofValue : Yaml.Value → Except Bytes Bool
  | .null => .ok false
  | .bool b => .ok b
  | .integer isZero => .ok !isZero
  | .float isZero => .ok !isZero
  | .text s => ofWord s
  | .date => .error (wrongType "time.Time")
  | .list => .error (wrongType "[]interface \x7b\x7d")
  | .map => .error (wrongType "map[string]interface \x7b\x7d")

/-- A value of a layer as a truth value. -/
def convert : Raw Yaml.Value → Except Bytes Bool
  | .truth b => .ok b
  | .word s => ofWord s
  | .value v => ofValue v

/-- What is wrong with a field, if its value cannot be converted. -/
def fault? (l : Layers) (field : Bytes) : Option Bytes :=
  match (l.raw? field).map convert with
  | some (.error message) => some (bytes "'" ++ field ++ bytes "' " ++ message)
  | _ => none

/-- The value of a field, where it can be converted. A field without a value is false. -/
def truth (l : Layers) (field : Bytes) : Bool :=
  match (l.raw? field).map convert with
  | some (.ok b) => b
  | _ => false

/-- The values of fields, or all that is wrong with them. -/
def decode (registrations : List Registration) (env : Environment) (file : Entries Yaml.Value)
    (fields : List Bytes) : Except Bytes ((field : Bytes) → Bool) :=
  let l : Layers := ⟨registrations, env, file⟩
  match fields.filterMap l.fault? with
  | [] => .ok l.truth
  | faults =>
    .error (bytes "decoding failed due to the following error(s):\n\n" ++
      Bytes.joinWith [Bytes.lf] faults)

/-! ### Settings files -/

/-- The entry of a mapping with its name. A null key is left out; no answer when the entry has no
value. -/
def entryOf? (depth : Nat) (e : Yaml.Node × Yaml.Node) : Option (Option (Bytes × Option Yaml.Value)) := do
  let _ ← e.1.keyValue?
  let value ← e.2.value? depth
  return e.1.name?.map fun name => (name, if value == .null then none else some value)

/-- The entries of a text; nothing when it is no mapping or something in it has no value. An empty text
has no entries. -/
def entries? (content : Bytes) : Option (Entries Yaml.Value) := do
  let depth := content.length + 2
  match ← Yaml.Node.ofText? content with
  | none => return []
  | some (.mapping entries) =>
    let all ← Yaml.Node.allEntries? depth entries
    return (← all.mapM (entryOf? depth)).filterMap id
  | some n => if n.value? depth == some .null then return [] else none

/-- The entries of a text, or the words for having none. -/
def parse (content : Bytes) : Except Bytes (Entries Yaml.Value) :=
  match entries? content with
  | some entries => .ok entries
  | none => .error (bytes "While parsing config: yaml: no mapping of settings")

end Layers

/-- The standard keeper. -/
def Keeper.standard : Keeper Yaml.Value := ⟨Layers.parse, Layers.convert, Layers.decode⟩

end EmphasisSpacing
