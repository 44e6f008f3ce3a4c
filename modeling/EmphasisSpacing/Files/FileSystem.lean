import EmphasisSpacing.Files.Directory
import EmphasisSpacing.Files.Path
import EmphasisSpacing.Text.Utf8

/-!
# The file system

A file system is a root directory and a working directory. The operations take paths as they are
given, relative ones against the working directory, and walk them part by part: `.` stays, `..` goes up,
and every part but the last has to be a folder. A failure names the operation and the path as given.
-/

namespace EmphasisSpacing

/-- Why an operation on a path fails. -/
inductive PathFault where
  | notExist
  | notDirectory
  | isDirectory
  | invalid
  | nameTooLong
  | permission
  deriving DecidableEq, Repr

/-- The words for a fault. -/
def PathFault.message : PathFault → String
  | .notExist => "no such file or directory"
  | .notDirectory => "not a directory"
  | .isDirectory => "is a directory"
  | .invalid => "invalid argument"
  | .nameTooLong => "file name too long"
  | .permission => "permission denied"

/-- The operations on paths. -/
inductive PathOperation where
  | stat
  | openFile
  | read
  | mkdir
  deriving DecidableEq, Repr

/-- The name of an operation. -/
def PathOperation.name : PathOperation → String
  | .stat => "stat"
  | .openFile => "open"
  | .read => "read"
  | .mkdir => "mkdir"

/-- A failed operation. -/
structure FileError where
  operation : PathOperation
  path : Bytes
  fault : PathFault
  deriving DecidableEq, Repr

/-- The words for a failed operation. -/
def FileError.message (e : FileError) : Bytes :=
  bytes e.operation.name ++ bytes " " ++ e.path ++ bytes ": " ++ bytes e.fault.message

/-- The files that a program sees. -/
structure FileSystem where
  root : Directory
  /-- The working directory, an absolute path. -/
  cwd : Bytes
  deriving DecidableEq, Repr

namespace FileSystem

/-! ### Finding a path -/

/-- What a path leads to: an entry, or a free name in a folder. -/
inductive Spot where
  | taken (location : List Bytes) (entry : Entry)
  | free (location : List Bytes)
  deriving DecidableEq, Repr

/-- The greatest length of a name. -/
def maxName : Nat := 255

/-- Walks the parts of a path from the folder at location `here`. -/
def walkParts (root : Directory) : (here : List Bytes) → (parts : List Bytes) → Except PathFault Spot
  | here, [] =>
    match root.lookup here with
    | some e => .ok (.taken here e)
    | none => .error .notExist
  | here, p :: ps =>
    if p.isEmpty || p == Path.dot then walkParts root here ps
    else if p == Path.dotDot then walkParts root here.dropLast ps
    else if maxName < p.length then .error .nameTooLong
    else match root.lookup (here ++ [p]) with
      | some (.folder _) => walkParts root (here ++ [p]) ps
      | some (.file content) =>
        if ps.isEmpty then .ok (.taken (here ++ [p]) (.file content)) else .error .notDirectory
      | none => if ps.isEmpty then .ok (.free (here ++ [p])) else .error .notExist

/-- What a path leads to. -/
def spot (fs : FileSystem) (path : Bytes) : Except PathFault Spot :=
  if path.contains 0 then .error .invalid
  else if path.isEmpty then .error .notExist
  else
    let here := if Path.isAbsolute path then [] else Path.parts fs.cwd
    walkParts fs.root here (path.splitOn Bytes.slash)

/-! ### Operations -/

/-- The entry at a path. -/
def stat (fs : FileSystem) (path : Bytes) : Except FileError Entry :=
  match fs.spot path with
  | .ok (.taken _ e) => .ok e
  | .ok (.free _) => .error ⟨.stat, path, .notExist⟩
  | .error f => .error ⟨.stat, path, f⟩

/-- The content of a file. A folder can be opened but not read. -/
def read (fs : FileSystem) (path : Bytes) : Except FileError Bytes :=
  match fs.spot path with
  | .ok (.taken _ (.file content)) => .ok content
  | .ok (.taken _ (.folder _)) => .error ⟨.read, path, .isDirectory⟩
  | .ok (.free _) => .error ⟨.openFile, path, .notExist⟩
  | .error f => .error ⟨.openFile, path, f⟩

/-- The file system after a file got the given content. The file is made if it is missing. -/
def write (fs : FileSystem) (path content : Bytes) : Except FileError FileSystem :=
  match fs.spot path with
  | .ok (.taken location (.file _)) | .ok (.free location) =>
    .ok { fs with root := fs.root.update (.file content) location }
  | .ok (.taken _ (.folder _)) => .error ⟨.openFile, path, .isDirectory⟩
  | .error f => .error ⟨.openFile, path, f⟩

/-- The file system after a text was added to the end of a file; as before when there is no such
file. -/
def append (fs : FileSystem) (path text : Bytes) : FileSystem :=
  match fs.spot path with
  | .ok (.taken location (.file content)) =>
    { fs with root := fs.root.update (.file (content ++ text)) location }
  | _ => fs

/-- The file system after a folder was made. -/
def makeFolder (fs : FileSystem) (path : Bytes) : Except FileError FileSystem :=
  match fs.spot path with
  | .ok (.free location) => .ok { fs with root := fs.root.update (.folder .empty) location }
  | .ok (.taken _ _) => .error ⟨.mkdir, path, .notDirectory⟩
  | .error f => .error ⟨.mkdir, path, f⟩

/-- Makes the folders of a path one below the other, as far as they are missing. `done` are the parts
above, which exist. What was made before a failure stays. -/
def makeFoldersFrom (rooted : Bool) (fs : FileSystem) : (done parts : List Bytes) →
    FileSystem × Except FileError Unit
  | _, [] => (fs, .ok ())
  | done, p :: ps =>
    let path := Path.ofParts rooted (done ++ [p])
    match fs.stat path with
    | .ok (.folder _) => makeFoldersFrom rooted fs (done ++ [p]) ps
    | .ok (.file _) => (fs, .error ⟨.mkdir, path, .notDirectory⟩)
    | .error _ =>
      match fs.makeFolder path with
      | .ok fs => makeFoldersFrom rooted fs (done ++ [p]) ps
      | .error e => (fs, .error e)
  termination_by _ parts => parts.length

/-- Makes a folder and all folders above it, as far as they are missing. The path is a clean one. -/
def makeFolders (fs : FileSystem) (path : Bytes) : FileSystem × Except FileError Unit :=
  makeFoldersFrom (Path.isAbsolute path) fs [] (Path.parts path)

/-- The names in a folder, in order; none when there is no such folder. -/
def namesIn (fs : FileSystem) (path : Bytes) : List Bytes :=
  match fs.stat path with
  | .ok (.folder inside) => inside.names
  | _ => []

end FileSystem

end EmphasisSpacing
