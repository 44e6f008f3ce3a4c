import EmphasisSpacing.Text.Integer
import EmphasisSpacing.Text.Quoted

/-!
# Log entries

A log entry is a line of keys and values: its level, its message and some fields. A value is quoted
when a reader could not tell its end otherwise, or when it holds something that does not print.
-/

namespace EmphasisSpacing

namespace Log

/-- How much an entry matters. -/
inductive Level where
  | debug
  | warn
  deriving DecidableEq, Repr

/-- The name of a level. -/
def Level.name : Level → String
  | .debug => "DEBUG"
  | .warn => "WARN"

/-- A log entry. -/
structure Entry where
  level : Level
  message : Bytes
  fields : List (Bytes × Bytes)
  deriving DecidableEq, Repr

/-- Whether a character makes a value need quotes. Among ASCII these are controls but DEL, the space,
the double quote and the equals sign; beyond it, what is not printable. The replacement character
counts too, because it may stand for an ill-formed byte. -/
def isRisky (c : Char) : Bool :=
  if c.toNat < 0x80 then c.toNat < 0x20 || c == ' ' || c == '"' || c == '='
  else c == Utf8.replacement || !Printable.holds c.toNat

/-- Whether a value needs quotes. -/
def needsQuotes (s : Bytes) : Bool := s.isEmpty || (Utf8.decode s).any isRisky

/-- A value as written. -/
def value (s : Bytes) : Bytes := if needsQuotes s then Quoted.text s else s

/-- A key with its value. -/
def field (key s : Bytes) : Bytes := key ++ bytes "=" ++ value s

/-- An entry as a line. -/
def Entry.render (e : Entry) : Bytes :=
  let fields := (bytes "level", bytes e.level.name) :: (bytes "msg", e.message) :: e.fields
  Bytes.joinWith (bytes " ") (fields.map fun (k, v) => field k v) ++ [Bytes.lf]

/-- Whether an entry is written: warnings always, the rest when asked for. -/
def Entry.isShown (verbose : Bool) (e : Entry) : Bool := verbose || e.level == .warn

/-- The lines of the entries that are written. -/
def render (verbose : Bool) (entries : List Entry) : Bytes :=
  (entries.filter (Entry.isShown verbose)).flatMap Entry.render

end Log

end EmphasisSpacing
