import EmphasisSpacing.Command.Flag
import EmphasisSpacing.Report.Theme
import EmphasisSpacing.Settings.File

/-!
# The commands

The program is a tree of commands. Each has a name below the one above it, words for the help text and
flags of its own; some flags are shared by all commands.
-/

namespace EmphasisSpacing

/-- A command. -/
inductive Command where
  | root
  | bold
  | check
  | completion
  | config
  | configInit
  | configShow
  | fix
  | help
  | hints
  deriving DecidableEq, Repr

namespace Command

/-! ### The tree -/

/-- The name of a command. -/
def name : Command → Bytes
  | .root => bytes "emspace"
  | .bold => bytes "bold"
  | .check => bytes "check"
  | .completion => bytes "completion"
  | .config => bytes "config"
  | .configInit => bytes "init"
  | .configShow => bytes "show"
  | .fix => bytes "fix"
  | .help => bytes "help"
  | .hints => bytes "hints"

/-- The commands directly below a command, in the order of their names. -/
def children : Command → List Command
  | .root => [.bold, .check, .completion, .config, .fix, .help, .hints]
  | .config => [.configInit, .configShow]
  | _ => []

/-- The names from the root down to a command. -/
def path : Command → Bytes
  | .root => name .root
  | .configInit => bytes "emspace config init"
  | .configShow => bytes "emspace config show"
  | c => name .root ++ [Bytes.space] ++ c.name

/-- Whether a command does something of its own. -/
def isRunnable : Command → Bool
  | .config => false
  | _ => true

/-! ### Words -/

/-- What a command does, in one line. -/
def short : Command → Bytes
  | .root => bytes "Normalize whitespace around Markdown emphasis markers"
  | .bold => bytes "Fix bold spacing (runs the full pipeline)"
  | .check => bytes "Report inputs whose emphasis spacing would change; exit 1 if any"
  | .completion => bytes "Generate the autocompletion script for the specified shell"
  | .config => bytes "Inspect or create the configuration file"
  | .configInit => bytes "Write the default configuration (default ./.emspace.yaml)"
  | .configShow => bytes "Print the effective configuration as YAML"
  | .fix => bytes "Fix all emphasis spacing"
  | .help => bytes "Help about any command"
  | .hints => bytes "Show emphasis markers next to characters that break CommonMark flanking"

/-- What the commands that fix documents take. -/
def inputsNote : Bytes :=
  bytes ".\n\nInputs may be files, directories, file:// or http(s):// URLs, or - for stdin.\n" ++
    bytes "With no inputs, Markdown is read from stdin."

/-- What a command does, at the top of its help text. -/
def long : Command → Bytes
  | .root =>
    bytes "emspace trims blanks inside *, ** and *** spans and spaces them away from adjacent CJK text."
  | .bold => short .bold ++ inputsNote
  | .fix => short .fix ++ inputsNote
  | .help =>
    bytes "Help provides help for any command in the application.\n" ++
      bytes "Simply type emspace help [path to command] for full details."
  | c => c.short

/-- The operands of a command, for its usage line. -/
def operandWords : Command → Bytes
  | .bold | .check | .fix | .hints => bytes " [inputs...]"
  | .configInit => bytes " [path]"
  | .help => bytes " [command]"
  | _ => []

/-! ### Flags -/

/-- A truth flag that is off without mention. -/
def offFlag (name : String) (letter : Option UInt8) (usage : Bytes) : Flag :=
  ⟨bytes name, letter, .truth, usage, none, none⟩

/-- A text flag that is empty without mention. -/
def textFlag (name : String) (letter : Option UInt8) (usage : String) : Flag :=
  ⟨bytes name, letter, .text, bytes usage, none, none⟩

/-- The flag of a setting. -/
def switchFlag (k : Switch) : Flag :=
  { name := k.flag
    letter := none
    kind := .truth
    usage := k.usage
    valueName := if k == .skipInlineCode then some (bytes "inline code") else none
    standard := if k.get .standard then some (bytes "true") else none }

/-- The flags of the settings. -/
def switchFlags : List Flag := Switch.all.map switchFlag

/-- The flags of all commands. -/
def sharedFlags : List Flag :=
  textFlag "config" (some 0x63) "Config file (default ./.emspace.yaml or the user config dir)" ::
    offFlag "verbose" (some 0x76) (bytes "Log debug information to stderr") :: switchFlags

/-- The flag that leaves out documents. -/
def excludeFlag : Flag :=
  ⟨bytes "exclude", some 0x78, .list,
    bytes "Skip paths matching a doublestar pattern (repeatable)", none, none⟩

/-- The flags of the commands that fix documents. -/
def fixFlags : List Flag :=
  [offFlag "write" (some 0x77) (bytes "Rewrite files in place"),
    textFlag "output" (some 0x6F) "Output file instead of stdout",
    offFlag "diff" (some 0x64) (bytes "Print a unified diff instead of the formatted document"),
    offFlag "silent" (some 0x73) (bytes "Do not report whether anything changed"),
    excludeFlag]

/-- The flags of the command that reports documents. -/
def checkFlags : List Flag :=
  [offFlag "diff" (some 0x64) (bytes "Print a unified diff for each input that would change"), excludeFlag]

/-- The flags of the command that shows hints. -/
def hintsFlags : List Flag :=
  [⟨bytes "cursor", none, .integer,
      bytes "Byte offset of the cursor; hints on spans touching it are hidden", none,
      some (bytes "-1")⟩,
    textFlag "selection" none "Byte range start:end; hints on spans overlapping it are hidden",
    ⟨bytes "theme", none, .text,
      bytes "Hint theme (" ++ Bytes.joinWith (bytes ", ") Theme.names ++ bytes ")", none,
      some (bytes "\"default\"")⟩,
    ⟨bytes "width", none, .integer,
      bytes "Output width (default: terminal width, $COLUMNS or 80)", none, none⟩,
    ⟨bytes "osc8", some 0x38, .text, bytes "OSC8 hyperlinks on locations: auto|on|off", none,
      some (bytes "\"auto\"")⟩,
    excludeFlag]

/-- The flags that only the given command has. -/
def ownFlags : Command → List Flag
  | .bold | .fix => fixFlags
  | .check => checkFlags
  | .hints => hintsFlags
  | .configInit => [offFlag "force" (some 0x66) (bytes "Overwrite an existing file")]
  | _ => []

/-- The flag that asks for the help text of a command. -/
def helpFlag (c : Command) : Flag := offFlag "help" (some 0x68) (bytes "help for " ++ c.name)

/-- The flags on the program itself, which every command has and the root one more of. -/
def metaFlags : Command → List Flag
  | .root => [helpFlag .root, offFlag "version" none (bytes "version for emspace")]
  | c => [helpFlag c]

/-- The flags by which the command is looked for. -/
def lookupFlags (c : Command) : List Flag := c.ownFlags ++ sharedFlags

/-- All flags of a command. -/
def flags (c : Command) : List Flag := c.lookupFlags ++ c.metaFlags

end Command

end EmphasisSpacing
