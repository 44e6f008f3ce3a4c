import EmphasisSpacing.Environment
import EmphasisSpacing.Files.Path
import EmphasisSpacing.Link.Address
import EmphasisSpacing.Text.WhiteSpace

/-!
# Where documents come from

An argument names standard input, an address on the web, or a local path: a plain one or a file
address. What cannot be read as an address is a path.
-/

namespace EmphasisSpacing

/-- A document, or a directory of documents, that an argument names. -/
inductive Source where
  | standardInput
  | web (address : Bytes)
  /-- A local path, with the name that the user sees. -/
  | file (name path : Bytes)
  deriving DecidableEq, Repr

namespace Source

/-- What the user sees. -/
def name : Source → Bytes
  | .standardInput => bytes "-"
  | .web address => address
  | .file name _ => name

/-- The path of a local file; empty for anything else. -/
def path : Source → Bytes
  | .file _ path => path
  | _ => []

/-- Whether a document can be changed where it is. -/
def isWritable : Source → Bool
  | .file _ _ => true
  | _ => false

/-- The home directory in place of a tilde in front of a path. Without a home directory the path
stays. -/
def expandHome (env : Environment) (p : Bytes) : Bytes :=
  let home := env.get (bytes "HOME")
  if home.isEmpty then p
  else match p with
    | [0x7E] => home
    | 0x7E :: 0x2F :: rest => Path.join [home, rest]
    | p => p

/-- A path as the file system is asked for it: absolute, clean, and with the home directory in place of
a tilde. -/
def localPath (env : Environment) (cwd p : Bytes) : Bytes := Path.absolute cwd (expandHome env p)

/-- A local source with the given name. -/
def atPath (env : Environment) (cwd name : Bytes) : Source := .file name (localPath env cwd name)

/-- The path that a file address names: its path, or its host when it has no path, decoded once more
if it can be. -/
def pathOfAddress (a : Address) : Bytes :=
  let p := if a.path.isEmpty then a.host else a.path
  match Percent.decode .path p with
  | .ok decoded => decoded
  | .error _ => p

/-- The source that an argument names; nothing for a blank argument. -/
def ofArgument? (env : Environment) (cwd argument : Bytes) : Option Source :=
  let arg := WhiteSpace.trim argument
  if arg.isEmpty then none
  else if arg == bytes "-" then some .standardInput
  else match Address.read arg with
    | .ok a =>
      if a.scheme == bytes "http" || a.scheme == bytes "https" then some (.web arg)
      else if a.scheme == bytes "file" then some (atPath env cwd (pathOfAddress a))
      else some (atPath env cwd arg)
    | .error _ => some (atPath env cwd arg)

/-- The words for a blank argument. -/
def blankMessage : Bytes := bytes "empty input argument"

end Source

end EmphasisSpacing
