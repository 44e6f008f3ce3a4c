import EmphasisSpacing.Command.Run

/-!
# What a command line can ask for

Before a command runs, its surroundings have to be there: the variables that are looked at, the paths that
can be read or written, and standard input if the command reads it. These functions say which, so that
nothing else needs to be fetched.
-/

namespace EmphasisSpacing

namespace Reach

/-- The variables that commands look at. -/
def envNames : List Bytes :=
  ["HOME", "XDG_CONFIG_HOME", "COLUMNS", "OSC8", "DOMTERM", "WT_SESSION", "TERM_PROGRAM", "TERM",
    "VTE_VERSION"].map bytes ++ Switch.all.map Switch.envName

/-- Whether a command handles documents. -/
def handlesDocuments : Command → Bool
  | .fix | .bold | .check | .hints => true
  | _ => false

/-- The command of a command line with its arguments; nothing when they cannot be read. -/
def request? (arguments : List Bytes) : Option (Command × Arguments) :=
  let (c, arguments) := Command.find arguments
  match Flag.read c.flags arguments with
  | .ok args => some (c, args)
  | .error _ => none

/-- Whether a command line reads standard input. -/
def readsInput (arguments : List Bytes) : Bool :=
  match request? arguments with
  | none => false
  | some (c, args) =>
    handlesDocuments c && (Command.answer? c args).isNone &&
      (args.operands.isEmpty || args.operands.any fun s => WhiteSpace.trim s == bytes "-")

/-- The path of an operand; nothing when it names no local file. -/
def operandPath? (env : Environment) (cwd : Bytes) (s : Bytes) : Option Bytes :=
  match Source.ofArgument? env cwd s with
  | some (.file _ path) => some path
  | _ => none

/-- The local paths, from the root, that a command line can read or write. -/
def paths (env : Environment) (cwd : Bytes) (arguments : List Bytes) : List Bytes :=
  match request? arguments with
  | none => []
  | some (_, args) =>
    let config := args.textOr (bytes "config") []
    let output := args.textOr (bytes "output") []
    (config :: SettingsFile.candidates env).map (Path.absolute cwd) ++
      [Source.localPath env cwd output] ++ args.operands.map (Source.localPath env cwd) ++
      args.operands.filterMap (operandPath? env cwd)

end Reach

end EmphasisSpacing
