import EmphasisSpacing.Text.Bytes

/-!
# Environment variables

The environment is a list of names and values. A variable that is not set reads as the empty string.
-/

namespace EmphasisSpacing

/-- Names and values of environment variables. -/
abbrev Environment := List (Bytes × Bytes)

/-- The value of a variable; empty when it is not set. -/
def Environment.get (env : Environment) (name : Bytes) : Bytes :=
  match env.find? (·.1 == name) with
  | some (_, value) => value
  | none => []

end EmphasisSpacing
