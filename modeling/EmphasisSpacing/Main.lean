import EmphasisSpacing.Command.Reach

/-!
# The program

Fetches what the command line can ask for, runs it, and carries out what changed. Everything that decides
anything is in the modules below.
-/

namespace EmphasisSpacing

namespace Main

/-- A byte string as the operating system takes it. -/
def string (s : Bytes) : String := String.ofList (Utf8.decode s)

/-- The variables of the environment that are set. -/
def environment : IO Environment :=
  Reach.envNames.filterMapM fun name => do
    return (← IO.getEnv (string name)).map fun value => (name, bytes value)

/-- The content of the file at a path. -/
def content (path : String) : IO Bytes := do
  return (← IO.FS.readBinFile path).toList

/-- The folder at a path, with everything in it. -/
partial def folder (path : String) : IO Directory := do
  let here := (← IO.currentDir) / path
  (← here.readDir).foldlM (fun d e => do
    let inside := path ++ "/" ++ e.fileName
    let entry : Entry ←
      if ← e.path.isDir then
        pure (Entry.folder (← folder inside))
      else
        pure (Entry.file (← content inside))
    return d.set (bytes e.fileName) entry) Directory.empty

/-- Fetches what is at a location and the folders above it; `isWhole` asks for everything in the last
folder. -/
def fetchEntry (fs : FileSystem) (location : List Bytes) (isWhole : Bool) : IO FileSystem := do
  let path := string (Path.ofParts true location)
  let here := (← IO.currentDir) / path
  if ← here.isDir then
    let known := (fs.root.lookup location).isSome
    if isWhole then
      return { fs with root := fs.root.update (.folder (← folder path)) location }
    else if known then
      return fs
    else
      return { fs with root := fs.root.update (.folder .empty) location }
  else if ← here.pathExists then
    return { fs with root := fs.root.update (.file (← content path)) location }
  else
    return fs

/-- Fetches what is at a path. -/
def fetch (fs : FileSystem) (path : Bytes) : IO FileSystem := do
  let location := Path.parts path
  let above ← (List.range location.length).foldlM
    (fun fs n => fetchEntry fs (location.take n) false) fs
  fetchEntry above location (path != fs.cwd)

/-- Carries out the changes of files. -/
def store (before after : FileSystem) : IO Unit := do
  let old := before.root.files []
  for (location, text) in after.root.files [] do
    if !old.contains (location, text) then
      IO.FS.createDirAll (string (Path.ofParts true location.dropLast))
      IO.FS.writeBinFile (string (Path.ofParts true location)) ⟨text.toArray⟩

/-- Writes bytes to a stream. -/
def put (stream : IO.FS.Stream) (s : Bytes) : IO Unit := do
  stream.write ⟨s.toArray⟩
  stream.flush

/-- Reads a stream to its end. -/
partial def drain (stream : IO.FS.Stream) (before : ByteArray) : IO ByteArray := do
  let some ← stream.read 65536
  if some.isEmpty then return before else drain stream (before ++ some)

/-- Runs a command line. -/
def run (arguments : List Bytes) : IO UInt32 := do
  let env ← environment
  let cwd := bytes (← IO.currentDir).toString
  let input ← if Reach.readsInput arguments then drain (← IO.getStdin) .empty else pure .empty
  let files ← (Reach.paths env cwd arguments).foldlM fetch ⟨.empty, cwd⟩
  let surroundings := Surroundings.standard env none fun _ => .failed (bytes "no network")
  let (s, code) := Command.run surroundings arguments (.start files input.toList)
  store files s.files
  put (← IO.getStdout) s.output
  put (← IO.getStderr) s.errors
  return code.toNat.toUInt32

end Main

end EmphasisSpacing

/-- Runs the program on its arguments. -/
def main (arguments : List String) : IO UInt32 :=
  EmphasisSpacing.Main.run (arguments.map EmphasisSpacing.bytes)
