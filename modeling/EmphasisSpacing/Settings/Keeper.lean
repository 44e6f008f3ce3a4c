import EmphasisSpacing.Environment

/-!
# Keepers of settings

A keeper is told about keys: the standard value of each, a variable of the environment that can give
another one, and a flag that does. It reads the entries of a settings file, and in the end it fills in the
fields of a record with truth values. `Keeper` is all that is asked of it. Which of several values it
takes for a field and how it makes a truth value of that is its own affair.
-/

namespace EmphasisSpacing

/-- What a keeper is told about a key. -/
inductive Registration where
  /-- The value when nothing else gives one. -/
  | standard (key : Bytes) (value : Bool)
  /-- A variable of the environment that can give a value. -/
  | bindVariable (key name : Bytes)
  /-- A flag and the value that it gives. -/
  | bindFlag (key : Bytes) (value : Bool)
  deriving DecidableEq, Repr

/-- The key that a keeper is told about. -/
def Registration.key : Registration → Bytes
  | .standard key _ | .bindVariable key _ | .bindFlag key _ => key

/-- A value as it is found: a truth value of a flag or a standard, a word of the environment, or what an
entry of a settings file holds. -/
inductive Raw (Value : Type) where
  | truth (b : Bool)
  | word (s : Bytes)
  | value (v : Value)
  deriving DecidableEq, Repr

/-- The entries of a settings file in their order; the value of one may be null. -/
abbrev Entries (Value : Type) := List (Bytes × Option Value)

/-- Code that keeps settings, where entries of settings files hold a `Value`. -/
structure Keeper (Value : Type) where
  /-- The entries of a settings file, or why there are none. -/
  parse : (content : Bytes) → Except Bytes (Entries Value)
  /-- The truth value that a value stands for, or why there is none. -/
  convert : Raw Value → Except Bytes Bool
  /-- The truth values of fields, or why they cannot be filled in. -/
  decode : List Registration → Environment → Entries Value → (fields : List Bytes) →
    Except Bytes ((field : Bytes) → Bool)

end EmphasisSpacing
