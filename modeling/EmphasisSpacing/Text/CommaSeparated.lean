import EmphasisSpacing.Text.Integer
import EmphasisSpacing.Text.Utf8

/-!
# Records of fields with commas between them

One record is read from a text. A field may be quoted; it can then hold commas and line breaks, and a
double quote written twice. Empty lines before the record are passed over, and what follows the line of the
record does not count.

Columns of errors count bytes from 1.
-/

namespace EmphasisSpacing

namespace CommaSeparated

/-- The comma. -/
def comma : UInt8 := 0x2C

/-- The double quote. -/
def quote : UInt8 := 0x22

/-- What is wrong with a field. -/
inductive Fault where
  | bareQuote
  | quoteInQuoted
  deriving DecidableEq, Repr

/-- The words for a fault. -/
def Fault.message : Fault → String
  | .bareQuote => "bare \" in non-quoted field"
  | .quoteInQuoted => "extraneous or missing \" in quoted-field"

/-- Why there is no record. -/
inductive Error where
  /-- The text has only empty lines. -/
  | noRecord
  /-- A fault in the record that starts at line `start`. -/
  | field (start line column : Nat) (fault : Fault)
  deriving DecidableEq, Repr

/-- The words for an error. -/
def Error.message : Error → Bytes
  | .noRecord => bytes "EOF"
  | .field start line column fault =>
    (if start == line then [] else bytes "record on line " ++ Integer.ofNat start ++ bytes "; ") ++
      bytes "parse error on line " ++ Integer.ofNat line ++ bytes ", column " ++
      Integer.ofNat column ++ bytes ": " ++ bytes fault.message

/-! ### Lines -/

/-- A line with its break in the plain form. At the end of the text a lone carriage return is dropped. -/
def plainLine (l : Bytes) : Bytes :=
  match Bytes.dropSuffix? [Bytes.cr, Bytes.lf] l with
  | some body => body ++ [Bytes.lf]
  | none => if l.endsWith [Bytes.lf] then l else (Bytes.dropSuffix? [Bytes.cr] l).getD l

/-- Whether a line holds nothing but its break. -/
def isEmptyLine (l : Bytes) : Bool := l.isEmpty || l == [Bytes.lf]

/-- A line without its break. -/
def body (l : Bytes) : Bytes := (Bytes.dropSuffix? [Bytes.lf] l).getD l

/-! ### Fields -/

/-- Where reading is. -/
structure Position where
  /-- The line where the record starts. -/
  start : Nat
  line : Nat
  column : Nat
  deriving DecidableEq, Repr

/-- The position `n` bytes further on. -/
def Position.forward (p : Position) (n : Nat) : Position := { p with column := p.column + n }

/-- The error at a position. -/
def Position.error (p : Position) (fault : Fault) : Error := .field p.start p.line p.column fault

/-- A field without quotes. The first results are its content and the rest of the line behind the comma,
if there is one. -/
def bare (p : Position) (line : Bytes) : Except Error (Bytes × Option Bytes) :=
  let (field, rest) := match line.cutAt comma with
    | some (field, rest) => (field, some rest)
    | none => (body line, none)
  match Bytes.cutAt quote field with
  | some (before, _) => .error ((p.forward before.length).error .bareQuote)
  | none => .ok (field, rest)

/-- Reads the fields of a record. `quoted` is the content of the quoted field that is open, backwards;
`line` is what is left of the present line and `lines` are those that follow. `fuel` is more than the number
of bytes and lines that are left. -/
def fields : (fuel : Nat) → Position → (quoted : Option Bytes) → (line : Bytes) →
    (lines : List Bytes) → Except Error (List Bytes)
  | 0, _, _, _, _ => .ok []
  | fuel + 1, p, none, line, lines =>
    match line with
    | 0x22 :: rest => fields fuel (p.forward 1) (some []) rest lines
    | line => do
      match ← bare p line with
      | (field, none) => return [field]
      | (field, some rest) =>
        return field :: (← fields fuel (p.forward (field.length + 1)) none rest lines)
  | fuel + 1, p, some acc, line, lines =>
    match line.cutAt quote with
    | some (before, rest) =>
      let acc := before.reverse ++ acc
      let p := p.forward (before.length + 1)
      match rest with
      | 0x22 :: rest => fields fuel (p.forward 1) (some (quote :: acc)) rest lines
      | 0x2C :: rest => do return acc.reverse :: (← fields fuel (p.forward 1) none rest lines)
      | rest =>
        if isEmptyLine rest then .ok [acc.reverse]
        else .error (.field p.start p.line (p.column - 1) .quoteInQuoted)
    | none =>
      if line.isEmpty then .error (p.error .quoteInQuoted)
      else
        let acc := line.reverse ++ acc
        match lines with
        | [] => fields fuel (p.forward line.length) (some acc) [] []
        | [] :: lines => fields fuel (p.forward line.length) (some acc) [] lines
        | next :: lines =>
          fields fuel { p with line := p.line + 1, column := 1 } (some acc) next lines

/-- The first record, where the first of the lines has the given number. -/
def firstRecord (number : Nat) : List Bytes → Except Error (List Bytes)
  | [] => .error .noRecord
  | l :: ls =>
    if isEmptyLine l then firstRecord (number + 1) ls
    else fields ((l :: ls).flatten.length + ls.length + 2) ⟨number, number, 1⟩ none l ls

/-- The fields of the record that a text holds. The empty text is a record without fields. -/
def record (s : Bytes) : Except Error (List Bytes) :=
  if s.isEmpty then .ok [] else firstRecord 1 ((Bytes.splitAfterLf s).map plainLine)

end CommaSeparated

end EmphasisSpacing
