import EmphasisSpacing.Document.Line
import EmphasisSpacing.Text.WhiteSpace

/-!
# Front matter

A document may start with metadata between two delimiter lines. The first line must be a delimiter,
the second must look like metadata, and the delimiter must come again; otherwise the document starts
with ordinary text.
-/

namespace EmphasisSpacing

namespace FrontMatter

/-- The byte order mark, which may stand in front of the first delimiter. -/
def byteOrderMark : Bytes := [0xEF, 0xBB, 0xBF]

/-- The delimiters: three hyphens, plus signs or semicolons. -/
def delimiters : List Bytes := [[0x2D, 0x2D, 0x2D], [0x2B, 0x2B, 0x2B], [0x3B, 0x3B, 0x3B]]

/-- The delimiter that a first line consists of. -/
def opening? (line : Bytes) : Option Bytes :=
  let trimmed := WhiteSpace.trim ((Bytes.dropPrefix? byteOrderMark line).getD line)
  if delimiters.contains trimmed then some trimmed else none

/-- Whether a line looks like metadata: it starts with a brace or a bracket, or holds a colon or an
equals sign. -/
def looksLikeMetadata (line : Bytes) : Bool :=
  match WhiteSpace.trim line with
  | [] => false
  | b :: s => b == 0x7B || b == 0x5B || (b :: s).any fun c => c == 0x3A || c == 0x3D

/-- The number of lines up to and including the first that is `delim`; nothing when there is none. -/
def closing? (delim : Bytes) : List Line → Option Nat
  | [] => none
  | l :: ls =>
    if WhiteSpace.trim l.content == delim then some 1 else (closing? delim ls).map (· + 1)

/-- How many of the lines of a document belong to its front matter, delimiters included. -/
def lineCount (lines : List Line) : Nat :=
  match lines with
  | first :: second :: rest =>
    match opening? first.content with
    | some delim =>
      if looksLikeMetadata second.content then
        match closing? delim rest with
        | some n => n + 2
        | none => 0
      else 0
    | none => 0
  | _ => 0

end FrontMatter

end EmphasisSpacing
