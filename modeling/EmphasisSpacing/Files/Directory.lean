import EmphasisSpacing.Text.Bytes

/-!
# Directories

The content of a directory is a list of entries with different names, in the order of their names. It is
a type of its own and not a list of trees, so that functions on it are plain recursions: an entry is a
file with its content or a folder with the directory inside, and both go on with the entries that
follow.

A *location* is the list of names that leads from the root to an entry.
-/

namespace EmphasisSpacing

/-- The entries of a directory, in the order of their names. -/
inductive Directory where
  | empty
  | file (name content : Bytes) (rest : Directory)
  | folder (name : Bytes) (inside rest : Directory)
  deriving DecidableEq, Repr

/-- What a name stands for. -/
inductive Entry where
  | file (content : Bytes)
  | folder (inside : Directory)
  deriving DecidableEq, Repr

/-- Whether an entry is a folder. -/
def Entry.isFolder : Entry → Bool
  | .file _ => false
  | .folder _ => true

namespace Directory

/-- The directory with an entry in front. -/
def cons (name : Bytes) : Entry → Directory → Directory
  | .file content, rest => .file name content rest
  | .folder inside, rest => .folder name inside rest

/-- The entry with a name. -/
def find? (wanted : Bytes) : Directory → Option Entry
  | .empty => none
  | .file name content rest => if name == wanted then some (.file content) else rest.find? wanted
  | .folder name inside rest => if name == wanted then some (.folder inside) else rest.find? wanted

/-- The names of a directory, in order. -/
def names : Directory → List Bytes
  | .empty => []
  | .file name _ rest => name :: rest.names
  | .folder name _ rest => name :: rest.names

/-- The directory in which a name stands for the given entry, and all else is as before. A new name goes
to its place in the order. -/
def set (wanted : Bytes) (e : Entry) : Directory → Directory
  | .empty => cons wanted e .empty
  | .file name content rest =>
    if name == wanted then cons wanted e rest
    else if Bytes.le wanted name then cons wanted e (.file name content rest)
    else .file name content (rest.set wanted e)
  | .folder name inside rest =>
    if name == wanted then cons wanted e rest
    else if Bytes.le wanted name then cons wanted e (.folder name inside rest)
    else .folder name inside (rest.set wanted e)

/-- The entry at a location. -/
def lookup (d : Directory) : (location : List Bytes) → Option Entry
  | [] => some (.folder d)
  | [name] => d.find? name
  | name :: more =>
    match d.find? name with
    | some (.folder inside) => inside.lookup more
    | _ => none

/-- The directory with the given entry at a location. Where the way to the location is no folder,
nothing changes. -/
def update (d : Directory) (e : Entry) : (location : List Bytes) → Directory
  | [] => d
  | [name] => d.set name e
  | name :: more =>
    match d.find? name with
    | some (.folder inside) => d.set name (.folder (inside.update e more))
    | _ => d

/-- The files of a directory and the folders in it, by their locations, in order. The locations start
with `way`. -/
def files (way : List Bytes) : Directory → List (List Bytes × Bytes)
  | .empty => []
  | .file name content rest => (way ++ [name], content) :: rest.files way
  | .folder name inside rest => inside.files (way ++ [name]) ++ rest.files way

end Directory

end EmphasisSpacing
