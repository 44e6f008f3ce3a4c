import EmphasisSpacing.Text.Utf8

/-!
# Truth values as text

The words that options and variables accept for true and false.
-/

namespace EmphasisSpacing

namespace Truth

/-- The words for true. -/
def trueWords : List Bytes := ["1", "t", "T", "TRUE", "true", "True"].map bytes

/-- The words for false. -/
def falseWords : List Bytes := ["0", "f", "F", "FALSE", "false", "False"].map bytes

/-- The truth value that a word stands for. -/
def read? (s : Bytes) : Option Bool :=
  if trueWords.contains s then some true else if falseWords.contains s then some false else none

/-- A truth value as it is written. -/
def write (b : Bool) : Bytes := if b then bytes "true" else bytes "false"

end Truth

end EmphasisSpacing
