import EmphasisSpacing.Text.CommaSeparated
import EmphasisSpacing.Text.Quoted
import EmphasisSpacing.Text.Truth

/-!
# Flags

Arguments are flags with their values and operands, in any order. A flag has a name behind two hyphens and
may have a letter behind one; letters can be put together. A truth flag needs no value and takes one only
behind an equals sign; every other flag takes what follows the equals sign, the rest of its letters, or the
next argument. Two hyphens alone end the flags.
-/

namespace EmphasisSpacing

/-- What the value of a flag is. -/
inductive FlagKind where
  | truth
  | text
  | integer
  /-- A list that grows with every occurrence of the flag. -/
  | list
  deriving DecidableEq, Repr

/-- A flag. -/
structure Flag where
  name : Bytes
  letter : Option UInt8
  kind : FlagKind
  usage : Bytes
  /-- How the help text calls the value; nothing for the usual word. -/
  valueName : Option Bytes
  /-- The value without the flag, as the help text shows it; nothing when it needs no mention. -/
  standard : Option Bytes
  deriving DecidableEq, Repr

/-- The value of a flag. -/
inductive FlagValue where
  | truth (b : Bool)
  | text (s : Bytes)
  | integer (n : Int)
  | list (items : List Bytes)
  deriving DecidableEq, Repr

/-! ### Errors -/

/-- Why a text is no value of a flag. -/
inductive ValueFault where
  | notTruth (s : Bytes)
  | notInteger (s : Bytes) (error : Integer.ReadError)
  | notRecord (error : CommaSeparated.Error)
  deriving DecidableEq, Repr

/-- The words for a fault. -/
def ValueFault.message : ValueFault → Bytes
  | .notTruth s => bytes "strconv.ParseBool: parsing " ++ Quoted.text s ++ bytes ": invalid syntax"
  | .notInteger s e =>
    bytes "strconv.ParseInt: parsing " ++ Quoted.text s ++ bytes ": " ++ bytes e.message
  | .notRecord e => e.message

/-- Why arguments cannot be read. -/
inductive FlagError where
  | badSyntax (argument : Bytes)
  | unknown (name : Bytes)
  | unknownLetter (letter : UInt8) (letters : Bytes)
  | noValue (name : Bytes)
  | noLetterValue (letter : UInt8) (letters : Bytes)
  | badValue (flag : Flag) (value : Bytes) (fault : ValueFault)
  /-- The flag for help was given, but is not among the flags. -/
  | help
  deriving DecidableEq, Repr

/-- A flag as an error shows it. -/
def Flag.shown (f : Flag) : Bytes :=
  match f.letter with
  | some l => bytes "-" ++ [l] ++ bytes ", --" ++ f.name
  | none => bytes "--" ++ f.name

/-- The byte that an error shows for a letter. A letter is a byte; beyond ASCII it is taken for the
character with that number, and the first byte of that character is shown. -/
def shownLetter (b : UInt8) : UInt8 := if b < 0x80 then b else if b < 0xC0 then 0xC2 else 0xC3

/-- The words for an error. -/
def FlagError.message : FlagError → Bytes
  | .badSyntax s => bytes "bad flag syntax: " ++ s
  | .unknown name => bytes "unknown flag: --" ++ name
  | .unknownLetter l letters =>
    bytes "unknown shorthand flag: " ++ Quoted.byte (shownLetter l) ++ bytes " in -" ++ letters
  | .noValue name => bytes "flag needs an argument: --" ++ name
  | .noLetterValue l letters =>
    bytes "flag needs an argument: " ++ Quoted.byte (shownLetter l) ++ bytes " in -" ++ letters
  | .badValue f value fault =>
    bytes "invalid argument " ++ Quoted.text value ++ bytes " for " ++ Quoted.text f.shown ++
      bytes " flag: " ++ fault.message
  | .help => bytes "pflag: help requested"

/-! ### Values -/

/-- Arguments that were read: the values of flags, the latest first, and the operands. -/
structure Arguments where
  values : List (Bytes × FlagValue)
  operands : List Bytes
  deriving DecidableEq, Repr

namespace Arguments

/-- No arguments. -/
def empty : Arguments := ⟨[], []⟩

/-- The value of a flag, if it was given. -/
def value? (a : Arguments) (name : Bytes) : Option FlagValue := a.values.lookup name

/-- The value of a truth flag. -/
def truth (a : Arguments) (name : Bytes) : Bool :=
  match a.value? name with
  | some (.truth b) => b
  | _ => false

/-- The value of a text flag, or what stands for it when it was not given. -/
def textOr (a : Arguments) (name standard : Bytes) : Bytes :=
  match a.value? name with
  | some (.text s) => s
  | _ => standard

/-- The value of an integer flag, or what stands for it when it was not given. -/
def integerOr (a : Arguments) (name : Bytes) (standard : Int) : Int :=
  match a.value? name with
  | some (.integer n) => n
  | _ => standard

/-- The items of a list flag. -/
def items (a : Arguments) (name : Bytes) : List Bytes :=
  match a.value? name with
  | some (.list items) => items
  | _ => []

/-- The arguments with one more operand. -/
def addOperand (a : Arguments) (s : Bytes) : Arguments := { a with operands := a.operands ++ [s] }

/-- The value that a text is for a flag. -/
def valueOf (a : Arguments) (f : Flag) (s : Bytes) : Except ValueFault FlagValue :=
  match f.kind with
  | .truth =>
    match Truth.read? s with
    | some b => .ok (.truth b)
    | none => .error (.notTruth s)
  | .text => .ok (.text s)
  | .integer => ((Integer.read s).map .integer).mapError (.notInteger s)
  | .list =>
    ((CommaSeparated.record s).map fun items => .list (a.items f.name ++ items)).mapError .notRecord

/-- The arguments with a value for a flag. -/
def set (a : Arguments) (f : Flag) (s : Bytes) : Except FlagError Arguments :=
  match a.valueOf f s with
  | .ok v => .ok { a with values := (f.name, v) :: a.values }
  | .error fault => .error (.badValue f s fault)

end Arguments

/-! ### Reading -/

namespace Flag

/-- The hyphen. -/
def hyphen : UInt8 := 0x2D

/-- The equals sign. -/
def equals : UInt8 := 0x3D

/-- The flag with a name. -/
def byName? (flags : List Flag) (name : Bytes) : Option Flag := flags.find? (·.name == name)

/-- The flag with a letter. -/
def byLetter? (flags : List Flag) (letter : UInt8) : Option Flag :=
  flags.find? (·.letter == some letter)

/-- A flag whose value is the next argument, and the error if there is none. -/
structure Pending where
  flag : Flag
  error : FlagError

/-- Reads an argument with a name behind two hyphens. -/
def readName (flags : List Flag) (a : Arguments) (argument : Bytes) :
    Except FlagError (Arguments × Option Pending) :=
  let word := argument.drop 2
  if word.head? == some hyphen || word.head? == some equals then .error (.badSyntax argument)
  else
    let (name, value) := match Bytes.cutAt equals word with
      | some (name, value) => (name, some value)
      | none => (word, none)
    match byName? flags name, value with
    | none, _ => .error (if name == bytes "help" then .help else .unknown name)
    | some f, some value => (a.set f value).map (·, none)
    | some f, none =>
      if f.kind == .truth then (a.set f (bytes "true")).map (·, none)
      else .ok (a, some ⟨f, .noValue name⟩)

/-- Reads letters behind one hyphen. Letters that start with `test.` are passed over. -/
def readLetters (flags : List Flag) (a : Arguments) :
    Bytes → Except FlagError (Arguments × Option Pending)
  | [] => .ok (a, none)
  | l :: more =>
    if Bytes.startsWith (l :: more) (bytes "test.") then .ok (a, none)
    else match byLetter? flags l with
      | none => .error (if l == 0x68 then .help else .unknownLetter l (l :: more))
      | some f =>
        match more with
        | 0x3D :: b :: value => (a.set f (b :: value)).map (·, none)
        | more =>
          if f.kind == .truth then
            match a.set f (bytes "true") with
            | .ok a => readLetters flags a more
            | .error e => .error e
          else if more.isEmpty then .ok (a, some ⟨f, .noLetterValue l [l]⟩)
          else (a.set f more).map (·, none)

/-- Reads arguments; the first one may be the value of a flag before. -/
def readFrom (flags : List Flag) : Arguments → Option Pending → List Bytes → Except FlagError Arguments
  | a, none, [] => .ok a
  | _, some p, [] => .error p.error
  | a, some p, s :: rest =>
    match a.set p.flag s with
    | .ok a => readFrom flags a none rest
    | .error e => .error e
  | a, none, s :: rest =>
    match s with
    | 0x2D :: 0x2D :: word =>
      if word.isEmpty then .ok { a with operands := a.operands ++ rest }
      else match readName flags a s with
        | .ok (a, p) => readFrom flags a p rest
        | .error e => .error e
    | 0x2D :: l :: more =>
      match readLetters flags a (l :: more) with
      | .ok (a, p) => readFrom flags a p rest
      | .error e => .error e
    | s => readFrom flags (a.addOperand s) none rest

/-- Reads arguments by the given flags. -/
def read (flags : List Flag) (arguments : List Bytes) : Except FlagError Arguments :=
  readFrom flags .empty none arguments

end Flag

end EmphasisSpacing
