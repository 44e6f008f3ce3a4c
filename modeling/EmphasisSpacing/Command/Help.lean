import EmphasisSpacing.Command.Basic

/-!
# Help texts

The help text of a command says what it does, how it is used, which commands are below it and which flags
it has. Flags come in the order of their names, with the words on them in one column.
-/

namespace EmphasisSpacing

namespace Help

/-- `n` spaces. -/
def spaces (n : Nat) : Bytes := List.replicate n Bytes.space

/-- The width of the column of command names. -/
def nameWidth : Nat := 11

/-! ### Flags -/

/-- How the value of a flag is called; empty when the flag needs none. -/
def valueWord (f : Flag) : Bytes :=
  f.valueName.getD <|
    match f.kind with
    | .truth => []
    | .text => bytes "string"
    | .integer => bytes "int"
    | .list => bytes "strings"

/-- A flag with its letter and value, as the first column shows it. -/
def flagWords (f : Flag) : Bytes :=
  let word := valueWord f
  (match f.letter with
    | some l => bytes "  -" ++ [l] ++ bytes ", --"
    | none => bytes "      --") ++
    f.name ++ (if word.isEmpty then [] else Bytes.space :: word)

/-- What a flag does, and its value when it is not given. -/
def flagUsage (f : Flag) : Bytes :=
  f.usage ++
    match f.standard with
    | some s => bytes " (default " ++ s ++ bytes ")"
    | none => []

/-- The line of a flag, when the first column has the given width. -/
def flagLine (width : Nat) (f : Flag) : Bytes :=
  let words := flagWords f
  words ++ spaces (width - words.length + 3) ++ flagUsage f ++ [Bytes.lf]

/-- The lines of flags, in the order of their names. -/
def flagLines (flags : List Flag) : Bytes :=
  let width := (flags.map fun f => (flagWords f).length).foldl max 0
  (flags.mergeSort fun f g => Bytes.le f.name g.name).flatMap (flagLine width)

/-- A headed list of flags; nothing when there are none. -/
def flagSection (head : String) (flags : List Flag) : Bytes :=
  if flags.isEmpty then [] else bytes "\n" ++ bytes head ++ bytes ":\n" ++ flagLines flags

/-! ### Commands -/

/-- The line of a command below. -/
def commandLine (c : Command) : Bytes :=
  bytes "  " ++ c.name ++ spaces (nameWidth - c.name.length + 1) ++ c.short ++ [Bytes.lf]

/-- The lines on how a command is used. -/
def usageLines (c : Command) : Bytes :=
  bytes "Usage:\n" ++
    (if c.isRunnable then bytes "  " ++ c.path ++ c.operandWords ++ bytes " [flags]\n" else []) ++
    (if c.children.isEmpty then [] else bytes "  " ++ c.path ++ bytes " [command]\n")

/-- The lines on the commands below. -/
def commandLines (c : Command) : Bytes :=
  if c.children.isEmpty then []
  else bytes "\nAvailable Commands:\n" ++ c.children.flatMap commandLine

/-- The flags that the help text shows first. -/
def localFlags (c : Command) : List Flag :=
  c.ownFlags ++ c.metaFlags ++ (if c == .root then Command.sharedFlags else [])

/-- The flags that the help text shows as those of the commands above. -/
def globalFlags (c : Command) : List Flag := if c == .root then [] else Command.sharedFlags

/-- The last line of the help text. -/
def closing (c : Command) : Bytes :=
  if c.children.isEmpty then []
  else
    bytes "\nUse \"" ++ c.path ++ bytes " [command] --help\" for more information about a command.\n"

/-- The help text of a command. -/
def text (c : Command) : Bytes :=
  c.long ++ bytes "\n\n" ++ usageLines c ++ commandLines c ++ flagSection "Flags" (localFlags c) ++
    flagSection "Global Flags" (globalFlags c) ++ closing c

end Help

end EmphasisSpacing
