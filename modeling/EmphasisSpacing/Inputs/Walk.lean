import EmphasisSpacing.Files.Directory
import EmphasisSpacing.Files.Path
import EmphasisSpacing.Text.LowerCase

/-!
# Walking a directory

All Markdown files below a directory, depth first and in the order of names. Folders whose name starts
with a dot are passed over, and so are excluded files and folders; the latter leave a note.

An entry has two paths: its place under the root that is walked, and its name, which is the same place
under the name of that root.
-/

namespace EmphasisSpacing

namespace Walk

/-- The endings of Markdown files. -/
def extensions : List Bytes := [bytes ".md", bytes ".markdown", bytes ".mdown", bytes ".mkd"]

/-- Whether a name is that of a Markdown file. -/
def isMarkdown (name : Bytes) : Bool := extensions.contains (LowerCase.text (Path.extension name))

/-- Whether a name is that of a hidden entry. -/
def isHidden (name : Bytes) : Bool := name.head? == some 0x2E

/-- Something that a walk comes across. -/
inductive Event where
  /-- A Markdown file, with its name and its path. -/
  | found (name path : Bytes)
  | excludedFile (name : Bytes)
  | excludedFolder (name : Bytes)
  deriving DecidableEq, Repr

/-- What a walk needs to know: the root with its name, and which entries are excluded, by name and by
the path below the root. -/
structure Options where
  root : Bytes
  display : Bytes
  isExcluded : (name relative : Bytes) → Bool

/-- The path below the root. -/
def relative (location : List Bytes) : Bytes := Bytes.joinWith [Bytes.slash] location

/-- The name of an entry. -/
def Options.name (o : Options) (location : List Bytes) : Bytes :=
  Path.join [o.display, relative location]

/-- The path of an entry. -/
def Options.path (o : Options) (location : List Bytes) : Bytes :=
  Path.join [o.root, relative location]

/-- Whether the entry at a location is excluded. -/
def Options.excludes (o : Options) (location : List Bytes) : Bool :=
  o.isExcluded (o.name location) (relative location)

/-- What a file gives. -/
def onFile (o : Options) (location : List Bytes) (name : Bytes) : List Event :=
  if !isMarkdown name then []
  else if o.excludes location then [.excludedFile (o.name location)]
  else [.found (o.name location) (o.path location)]

/-- The events of a walk through a directory, whose location below the root is `way`. -/
def events (o : Options) (way : List Bytes) : Directory → List Event
  | .empty => []
  | .file name _ rest => onFile o (way ++ [name]) name ++ events o way rest
  | .folder name inside rest =>
    (if isHidden name then []
      else if o.excludes (way ++ [name]) then [.excludedFolder (o.name (way ++ [name]))]
      else events o (way ++ [name]) inside) ++ events o way rest

end Walk

end EmphasisSpacing
