import EmphasisSpacing.Environment
import EmphasisSpacing.Files.Path
import EmphasisSpacing.Link.Percent
import EmphasisSpacing.Text.Integer
import EmphasisSpacing.Text.LowerCase
import EmphasisSpacing.Text.WhiteSpace

/-!
# Links on a terminal

The location of a hint can be a link that the terminal opens. This module says which terminals are
known to show links, what a location links to, and how a link is written.
-/

namespace EmphasisSpacing

namespace Link

/-- `s` as a link to `target`. Without a target it is plain text. -/
def wrap (target s : Bytes) : Bytes :=
  if target.isEmpty then s
  else bytes "\x1b]8;;" ++ target ++ bytes "\x1b\\" ++ s ++ bytes "\x1b]8;;\x1b\\"

/-- The address of a local file with an absolute path. -/
def fileAddress (path : Bytes) : Bytes := bytes "file://" ++ Percent.encode .path path

/-- What a location links to: nothing for standard input, a web address as it is, and for a path the
address of the file, where `cwd` is the working directory. -/
def target (cwd path : Bytes) : Bytes :=
  if path.isEmpty || path == bytes "-" then []
  else if path.startsWith (bytes "http://") || path.startsWith (bytes "https://") then path
  else fileAddress (Path.absolute cwd path)

/-- The terminal programs known to show links. -/
def knownPrograms : List Bytes := [bytes "iTerm.app", bytes "WezTerm", bytes "vscode"]

/-- The first release of the common terminal library that shows links. -/
def minLibraryVersion : Int := 5000

/-- Whether the environment names a terminal that shows links. -/
def isSupported (env : Environment) : Bool :=
  if env.get (bytes "OSC8") == bytes "0" then false
  else if env.get (bytes "DOMTERM") != [] || env.get (bytes "WT_SESSION") != [] then true
  else if knownPrograms.contains (env.get (bytes "TERM_PROGRAM")) then true
  else if Bytes.hasInfix (bytes "kitty") (LowerCase.text (env.get (bytes "TERM"))) then true
  else match Integer.readDecimal? (env.get (bytes "VTE_VERSION")) with
    | some n => minLibraryVersion ≤ n
    | none => false

/-- Whether to write links, as an option says: automatically, on or off. Nothing for any other
word. -/
def wanted? (env : Environment) (mode : Bytes) : Option Bool :=
  let word := LowerCase.text (WhiteSpace.trim mode)
  if [[], bytes "auto"].contains word then some (isSupported env)
  else if [bytes "on", bytes "true", bytes "1", bytes "yes"].contains word then some true
  else if [bytes "off", bytes "false", bytes "0", bytes "no"].contains word then some false
  else none

/-- The words for an option that is none of these. -/
def modeMessage : Bytes := bytes "expected auto|on|off"

end Link

end EmphasisSpacing
