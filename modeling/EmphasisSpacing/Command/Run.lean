import EmphasisSpacing.Command.Check
import EmphasisSpacing.Command.Find
import EmphasisSpacing.Command.Fix
import EmphasisSpacing.Command.Help
import EmphasisSpacing.Command.ShowHints
import EmphasisSpacing.Settings.Layers
import EmphasisSpacing.Settings.Printed

/-!
# Running a command line

The arguments name a command; its flags are read, its operands counted, the settings loaded, and then the
command itself runs. Whatever fails first decides the words on standard error and the exit code.
-/

namespace EmphasisSpacing

namespace Command

/-- The flag of a setting, by its name. -/
def switchFlag? (args : Arguments) (name : Bytes) : Option SettingsFile.FlagState :=
  (Switch.all.find? (·.flag == name)).map fun k =>
    match args.value? name with
    | some (.truth b) => ⟨b, true⟩
    | _ => ⟨k.get .standard, false⟩

/-- The failure for operands that a command does not take. -/
def operandFailure? (c : Command) (operands : List Bytes) : Option Failure :=
  let unknown (s : Bytes) : Bytes :=
    bytes "unknown command " ++ Quoted.text s ++ bytes " for " ++ Quoted.text c.path
  match c, operands with
  | .root, s :: _ => some (.usage (unknown s))
  | .configShow, s :: _ => some (.general (unknown s))
  | .configInit, _ :: _ :: _ =>
    some (.general (bytes "accepts at most 1 arg(s), received " ++ Integer.ofNat operands.length))
  | _, _ => none

/-- Loads the settings for a command, with a log entry on the file that was read. -/
def setUp (a : Surroundings) (args : Arguments) (s : Session) : Session × Except Failure Settings :=
  match SettingsFile.load .standard (Session.readFile a s.files) s.files a.env (switchFlag? args)
      (args.textOr (bytes "config") []) (SettingsFile.candidates a.env) with
  | .error e => (s, .error (.general e.message))
  | .ok loaded =>
    let notes : List Log.Entry := match loaded.file with
      | some file => [⟨.debug, bytes "loaded config", [(bytes "file", file)]⟩]
      | none => []
    (s.log (args.truth (bytes "verbose")) notes, .ok loaded.settings)

/-! ### Options -/

/-- What the flags ask of the commands that fix documents. -/
def fixOptions (settings : Settings) (args : Arguments) : Fix.Options where
  settings := settings
  verbose := args.truth (bytes "verbose")
  write := args.truth (bytes "write")
  output := args.textOr (bytes "output") []
  diff := args.truth (bytes "diff")
  silent := args.truth (bytes "silent")
  excludes := args.items (bytes "exclude")

/-- What the flags ask of the command that reports documents. -/
def checkOptions (settings : Settings) (args : Arguments) : Check.Options where
  settings := settings
  verbose := args.truth (bytes "verbose")
  diff := args.truth (bytes "diff")
  excludes := args.items (bytes "exclude")

/-- What the flags ask of the command that shows hints. -/
def hintsOptions (settings : Settings) (args : Arguments) : ShowHints.Options where
  settings := settings
  verbose := args.truth (bytes "verbose")
  cursor := args.integerOr (bytes "cursor") (-1)
  selection := args.textOr (bytes "selection") []
  theme := (args.value? (bytes "theme")).map fun _ => args.textOr (bytes "theme") []
  width := args.integerOr (bytes "width") 0
  links := args.textOr (bytes "osc8") ShowHints.automatic
  excludes := args.items (bytes "exclude")

/-! ### The commands on settings files -/

/-- Writes the standard settings to a file. -/
def initSettings (a : Surroundings) (args : Arguments) (s : Session) : Session × Except Failure Unit :=
  let path := match args.operands with
    | p :: _ => Source.localPath a.env s.files.cwd p
    | [] => SettingsFile.name
  match SettingsFile.write a.writeFault s.files path .standard (args.truth (bytes "force")) with
  | (files, .error e) => ({ s with files := files }, .error (.general e.message))
  | (files, .ok ()) =>
    let s := { s with files := files, written := s.written ++ [path] }
    (s.tell (bytes "wrote " ++ path), .ok ())

/-- Prints the settings in force. -/
def showSettings (a : Surroundings) (settings : Settings) (s : Session) :
    Session × Except Failure Unit :=
  match s.write a (SettingsFile.print settings) .standard with
  | .ok s => (s, .ok ())
  | .error fault => (s, .error (.general fault))

/-! ### Running -/

/-- Does the work of a command. -/
def perform (a : Surroundings) (c : Command) (settings : Settings) (args : Arguments) (s : Session) :
    Session × Except Failure Unit :=
  match c with
  | .fix | .bold => Fix.run a (fixOptions settings args) args.operands s
  | .check => Check.run a (checkOptions settings args) args.operands s
  | .hints => ShowHints.run a (hintsOptions settings args) args.operands s
  | .configInit => initSettings a args s
  | .configShow => showSettings a settings s
  | .completion => (s, .error (.general (bytes "no completion script for this shell")))
  | c => (s.display a (Help.text c), .ok ())

/-- The text that answers a question about the program itself, if the arguments ask one. -/
def answer? (c : Command) (args : Arguments) : Option Bytes :=
  if args.truth (bytes "help") || !c.isRunnable then some (Help.text c)
  else if args.truth (bytes "version") then some (bytes "emspace v0.0.0\n")
  else if c == .help then some (Help.text (find args.operands).1)
  else none

/-- Runs a command on its arguments. -/
def execute (a : Surroundings) (c : Command) (args : Arguments) (s : Session) :
    Session × Except Failure Unit :=
  match answer? c args with
  | some text => (s.display a text, .ok ())
  | none =>
    match operandFailure? c args.operands with
    | some f => (s, .error f)
    | none =>
      match setUp a args s with
      | (s, .error f) => (s, .error f)
      | (s, .ok settings) => perform a c settings args s

/-- Runs a command line up to its failure, if there is one. -/
def attempt (a : Surroundings) (arguments : List Bytes) (s : Session) : Session × Except Failure Unit :=
  let (c, arguments) := find arguments
  match Flag.read c.flags arguments with
  | .error e => (s, .error (.usage e.message))
  | .ok args => execute a c args s

/-- Runs a command line. The result is the session afterwards and the exit code. -/
def run (a : Surroundings) (arguments : List Bytes) (s : Session) : Session × Int :=
  let (s, result) := attempt a arguments s
  match result with
  | .error ⟨_, some message⟩ => (s.tell message, exitCode result)
  | _ => (s, exitCode result)

end Command

end EmphasisSpacing
