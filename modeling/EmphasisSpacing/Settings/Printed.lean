import EmphasisSpacing.Settings.File
import EmphasisSpacing.Text.Truth

/-!
# Writing settings files

Settings as the text of a settings file, and writing it to a path.
-/

namespace EmphasisSpacing

namespace SettingsFile

/-- The first line of a settings file. -/
def header : Bytes := bytes "# emspace settings; EMSPACE_* variables and flags override these.\n"

/-- The line of one setting. -/
def line (s : Settings) (k : Switch) : Bytes :=
  k.field ++ bytes ": " ++ Truth.write (k.get s) ++ [Bytes.lf]

/-- Settings as the text of a settings file. -/
def print (s : Settings) : Bytes := header ++ Switch.all.flatMap (line s)

/-- Why a settings file cannot be written. -/
inductive WriteError where
  | present (path : Bytes)
  | file (error : FileError)
  deriving DecidableEq, Repr

/-- The words for an error. -/
def WriteError.message : WriteError → Bytes
  | .present path => bytes "config: " ++ path ++ bytes " already exists"
  | .file e => bytes "config: " ++ e.message

/-- Makes the folder of a path, unless it is the working directory. -/
def makeFolderOf (fs : FileSystem) (path : Bytes) : FileSystem × Except FileError Unit :=
  let folder := Path.directory path
  if folder == Path.dot then (fs, .ok ()) else fs.makeFolders folder

/-- Writes a settings file. One that is there already is only replaced if `force`. Folders that were made
before a failure stay. A file may refuse to be written. -/
def write (writeFault : (path : Bytes) → Option FileError) (fs : FileSystem) (path : Bytes)
    (s : Settings) (force : Bool) : FileSystem × Except WriteError Unit :=
  if !force && (fs.stat path).toOption.isSome then (fs, .error (.present path))
  else match makeFolderOf fs path with
    | (fs, .error e) => (fs, .error (.file e))
    | (fs, .ok ()) =>
      match fs.write path (print s), writeFault path with
      | .ok written, none => (written, .ok ())
      | .error e, _ | .ok _, some e => (fs, .error (.file e))

end SettingsFile

end EmphasisSpacing
