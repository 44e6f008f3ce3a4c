import EmphasisSpacing.Text.Utf8
import EmphasisSpacing.Text.WhiteSpace

/-!
# Archives

An archive is a text of many files: a comment, and members with a name and data. How archives are read and
written is a codec. In the standard one a member starts with a marker line, two hyphens, a space, its name,
a space and two hyphens; its data goes on to the next marker.
-/

namespace EmphasisSpacing

/-- A file in an archive. -/
structure Member where
  name : Bytes
  data : Bytes
  deriving DecidableEq, Repr

/-- An archive. -/
structure Archive where
  comment : Bytes
  members : List Member
  deriving DecidableEq, Repr

namespace Archive

/-- A way to read and to write archives. Every text can be read. -/
structure Codec where
  read : (text : Bytes) → Archive
  write : Archive → Bytes

/-- The beginning of a marker. -/
def opening : Bytes := bytes "-- "

/-- The end of a marker. -/
def closing : Bytes := bytes " --"

/-! ### Reading -/

/-- A line without its line feed and a carriage return before that. -/
def lineBody (l : Bytes) : Bytes :=
  match Bytes.dropSuffix? [Bytes.lf] l with
  | some body => (Bytes.dropSuffix? [Bytes.cr] body).getD body
  | none => l

/-- The name of a marker line; nothing for any other line. -/
def marker? (l : Bytes) : Option Bytes := do
  let inner ← Bytes.dropPrefix? opening (lineBody l)
  let name ← Bytes.dropSuffix? closing inner
  let name := WhiteSpace.trim name
  if name.isEmpty then none else return name

/-- A text with a line feed at its end, unless it is empty. -/
def endLine (s : Bytes) : Bytes :=
  match s.getLast? with
  | none => s
  | some b => if b == Bytes.lf then s else s ++ [Bytes.lf]

/-- The archive of the given lines. -/
def ofLines : List Bytes → Archive
  | [] => ⟨[], []⟩
  | l :: ls =>
    let rest := ofLines ls
    match marker? l with
    | some name => ⟨[], ⟨name, rest.comment⟩ :: rest.members⟩
    | none => ⟨endLine l ++ rest.comment, rest.members⟩

/-- Reads an archive. Every text is one. -/
def read (s : Bytes) : Archive := ofLines (Bytes.splitAfterLf s)

/-! ### Writing -/

/-- A member as text. -/
def writeMember (m : Member) : Bytes := opening ++ m.name ++ closing ++ [Bytes.lf] ++ endLine m.data

/-- An archive as text. -/
def write (a : Archive) : Bytes := endLine a.comment ++ a.members.flatMap writeMember

/-- The standard codec. -/
def Codec.standard : Codec := ⟨Archive.read, Archive.write⟩

end Archive

end EmphasisSpacing
