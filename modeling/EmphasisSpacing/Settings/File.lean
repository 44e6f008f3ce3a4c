import EmphasisSpacing.Files.FileSystem
import EmphasisSpacing.Settings.Keeper
import EmphasisSpacing.Settings.Switch

/-!
# Settings files

A settings file is named explicitly, or the first of some candidates that exists is taken: one in the
working directory and one in the configuration directory of the user. Its entries go to a keeper of
settings, together with what else can give a setting.
-/

namespace EmphasisSpacing

namespace SettingsFile

/-- The name of the file in the working directory. -/
def name : Bytes := bytes ".emspace.yaml"

/-! ### Finding the file -/

/-- The configuration directory of the user. -/
def userDirectory? (env : Environment) : Option Bytes :=
  let given := env.get (bytes "XDG_CONFIG_HOME")
  let home := env.get (bytes "HOME")
  if given.isEmpty then (if home.isEmpty then none else some (home ++ bytes "/.config"))
  else if Path.isAbsolute given then some given
  else none

/-- The candidates when nothing else is said. -/
def candidates (env : Environment) : List Bytes :=
  name ::
    match userDirectory? env with
    | some d => [Path.join [d, bytes "emspace", bytes "config.yaml"]]
    | none => []

/-- The first of some candidates that is a file. One that cannot be looked at ends the search. -/
def firstOf (fs : FileSystem) : List Bytes → Except FileError (Option Bytes)
  | [] => .ok none
  | p :: ps =>
    match fs.stat p with
    | .ok (.file _) => .ok (some p)
    | .ok (.folder _) => firstOf fs ps
    | .error e => if e.fault == .notExist then firstOf fs ps else .error e

/-- The settings file: the one that is named, or the first of the candidates. -/
def find (fs : FileSystem) (path : Bytes) (candidates : List Bytes) : Except FileError (Option Bytes) :=
  if path.isEmpty then firstOf fs candidates
  else match fs.stat path with
    | .ok _ => .ok (some path)
    | .error e => .error e

/-! ### Loading settings -/

/-- Why settings cannot be loaded. -/
inductive Error where
  | notFound (error : FileError)
  | unreadable (file : Bytes) (error : FileError)
  | malformed (file message : Bytes)
  | decode (message : Bytes)
  deriving DecidableEq, Repr

/-- The words for an error. -/
def Error.message : Error → Bytes
  | .notFound e => bytes "config: " ++ e.message
  | .unreadable file e => bytes "config: read " ++ file ++ bytes ": " ++ e.message
  | .malformed file message => bytes "config: read " ++ file ++ bytes ": " ++ message
  | .decode message => bytes "config: decode: " ++ message

/-- Settings and the file that was read for them, if any. -/
structure Loaded where
  settings : Settings
  file : Option Bytes
  deriving DecidableEq, Repr

/-- The state of a truth flag. -/
structure FlagState where
  value : Bool
  /-- Whether the flag was given; otherwise it has its standard value. -/
  given : Bool
  deriving DecidableEq, Repr

/-- What the keeper is told: for each setting its standard, its variable, and its flag if that was
given. -/
def registrations (flags : (name : Bytes) → Option FlagState) : List Registration :=
  Switch.all.flatMap fun k =>
    .standard k.key (k.get .standard) :: .bindVariable k.key k.envName ::
      ((flags k.flag).filter FlagState.given).toList.map fun f => .bindFlag k.key f.value

section

variable {Value : Type} (keeper : Keeper Value) (read : (path : Bytes) → Except FileError Bytes)

/-- The entries of the settings file that may have been found. -/
def readFound : Option Bytes → Except Error (Entries Value)
  | none => .ok []
  | some file => do
    let content ← (read file).mapError (.unreadable file)
    (keeper.parse content).mapError (.malformed file)

/-- Loads the settings. The flags are looked up by name. -/
def load (fs : FileSystem) (env : Environment) (flags : (name : Bytes) → Option FlagState)
    (path : Bytes) (candidates : List Bytes) : Except Error Loaded := do
  let file ← (find fs path candidates).mapError .notFound
  let entries ← readFound keeper read file
  let values ← (keeper.decode (registrations flags) env entries
    (Switch.all.map Switch.field)).mapError .decode
  return ⟨Switch.settings fun k => values k.field, file⟩

end

end SettingsFile

end EmphasisSpacing
