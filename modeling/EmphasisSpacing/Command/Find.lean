import EmphasisSpacing.Command.Basic

/-!
# Which command the arguments name

The name of a command can stand anywhere among the flags. What looks like a flag without its value takes
the next argument with it, whether the flag is known or not. The first argument that is neither a flag nor
the value of one names the command, and is taken out of the arguments; then the commands below are
looked for in the same way.
-/

namespace EmphasisSpacing

namespace Command

/-- Whether an argument looks like a flag whose value is the next argument. -/
def takesNext (flags : List Flag) (s : Bytes) : Bool :=
  if s.contains Flag.equals then false
  else match s with
    | 0x2D :: 0x2D :: name => !(Flag.byName? flags name).any (·.kind == .truth)
    | [0x2D, letter] => !(Flag.byLetter? flags letter).any (·.kind == .truth)
    | _ => false

/-- Whether an argument is an operand. -/
def isOperand (s : Bytes) : Bool := s.head? != some Flag.hyphen

/-- The argument that ends the flags. -/
def endOfFlags : Bytes := [Flag.hyphen, Flag.hyphen]

/-- The first operand. A flag that takes the last argument, or is the last one, ends the search. -/
def firstOperand? (flags : List Flag) : List Bytes → Option Bytes
  | [] => none
  | s :: rest =>
    if s == endOfFlags then none
    else if takesNext flags s then
      match rest with
      | _ :: next :: rest => firstOperand? flags (next :: rest)
      | _ => none
    else if !s.isEmpty && isOperand s then some s
    else firstOperand? flags rest

/-- The arguments without the first operand that is the given name. -/
def withoutOperand (flags : List Flag) (name : Bytes) : List Bytes → List Bytes
  | [] => []
  | s :: rest =>
    if s == endOfFlags then s :: rest
    else if takesNext flags s then
      match rest with
      | [] => [s]
      | value :: rest => s :: value :: withoutOperand flags name rest
    else if isOperand s && s == name then rest
    else s :: withoutOperand flags name rest

/-- The command below `c` that the arguments name, and the arguments without its name. -/
def below? (c : Command) (arguments : List Bytes) : Option (Command × List Bytes) := do
  let name ← firstOperand? c.lookupFlags arguments
  let child ← c.children.find? (·.name == name)
  return (child, withoutOperand c.lookupFlags name arguments)

/-- The command that the arguments name, and the arguments for it. Commands are at most two levels below
the root. -/
def find (arguments : List Bytes) : Command × List Bytes :=
  match below? .root arguments with
  | none => (.root, arguments)
  | some (c, arguments) => (below? c arguments).getD (c, arguments)

end Command

end EmphasisSpacing
