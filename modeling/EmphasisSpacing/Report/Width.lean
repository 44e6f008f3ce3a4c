import EmphasisSpacing.Environment
import EmphasisSpacing.Text.Integer
import EmphasisSpacing.Text.Utf8

/-!
# The width of the output

An explicit width wins, then the variable `COLUMNS`, and without either the width is 80. A width that
is not positive counts as none.
-/

namespace EmphasisSpacing

namespace Width

/-- The width when nothing says otherwise. -/
def standard : Int := 80

/-- The width of output that is not a terminal. -/
def resolve (env : Environment) (width : Int) : Int :=
  if 0 < width then width
  else ((Integer.readDecimal? (env.get (bytes "COLUMNS"))).filter (0 < ·)).getD standard

end Width

end EmphasisSpacing
