import EmphasisSpacing.Text.Bytes

/-!
# Lines

A document is a list of lines, each with the terminator that it was written with, so that putting the
lines together gives the document back byte for byte. A carriage return belongs to the terminator only
right before a line feed; anywhere else it is content, also at the very end of the document.
-/

namespace EmphasisSpacing

/-- How a line ends. Only the last line of a document can end with nothing. -/
inductive Ending where
  | none
  | lf
  | crlf
  deriving DecidableEq, Repr

/-- The bytes of a terminator. -/
def Ending.bytes : Ending → Bytes
  | .none => []
  | .lf => [Bytes.lf]
  | .crlf => [Bytes.cr, Bytes.lf]

/-- A line of a document. -/
structure Line where
  content : Bytes
  ending : Ending
  deriving DecidableEq, Repr

namespace Line

/-- The bytes of a line, terminator included. -/
def bytes (l : Line) : Bytes := l.content ++ l.ending.bytes

/-- The line that a line feed ends, given its other bytes backwards. A carriage return right before
the line feed joins the terminator. -/
def closed (before : Bytes) : Line :=
  match before with
  | [] => ⟨[], .lf⟩
  | b :: rest => if b == Bytes.cr then ⟨rest.reverse, .crlf⟩ else ⟨before.reverse, .lf⟩

/-- The lines of a document whose first line goes on after the bytes of `before`, given backwards. -/
def splitFrom : (before : Bytes) → Bytes → List Line
  | [], [] => []
  | b :: before, [] => [⟨(b :: before).reverse, .none⟩]
  | before, b :: s =>
    if b == Bytes.lf then closed before :: splitFrom [] s else splitFrom (b :: before) s

/-- The lines of a document. The empty document has none. -/
def split (s : Bytes) : List Line := splitFrom [] s

/-- The document with the given lines. -/
def join (ls : List Line) : Bytes := ls.flatMap bytes

/-- The content of line `n` of a document, counted from 1; empty when there is no such line. -/
def contentAt (s : Bytes) (n : Int) : Bytes :=
  if n < 1 then []
  else match (split s)[n.toNat - 1]? with
    | some l => l.content
    | none => []

end Line

end EmphasisSpacing
