import EmphasisSpacing.Emphasis.Hint
import EmphasisSpacing.Text.Integer
import EmphasisSpacing.Text.Quoted
import EmphasisSpacing.Text.WhiteSpace

/-!
# Selections as text

A selection is written as two byte offsets with a colon between them. White space around an offset does
not count.
-/

namespace EmphasisSpacing

namespace Selection

/-- Why a text is no selection. -/
inductive Error where
  | noColon (text : Bytes)
  | badStart (text : Bytes)
  | badStop (text : Bytes)
  deriving DecidableEq, Repr

/-- The words for an error. -/
def Error.message : Error → Bytes
  | .noColon text => bytes "want start:end, got " ++ Quoted.text text
  | .badStart text => bytes "bad start offset " ++ Quoted.text text
  | .badStop text => bytes "bad end offset " ++ Quoted.text text

/-- An offset: a decimal number that is not negative. -/
def offset? (s : Bytes) : Option Int :=
  (Integer.readDecimal? (WhiteSpace.trim s)).filter (0 ≤ ·)

/-- The two offsets of a selection, in the order in which they are written. -/
def read (s : Bytes) : Except Error (Int × Int) :=
  match s.cutAt 0x3A with
  | none => .error (.noColon s)
  | some (left, right) =>
    match offset? left, offset? right with
    | none, _ => .error (.badStart left)
    | some _, none => .error (.badStop right)
    | some start, some stop => .ok (start, stop)

end Selection

end EmphasisSpacing
