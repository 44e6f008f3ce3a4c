import EmphasisSpacing.Emphasis.Format
import EmphasisSpacing.Files.Glob
import EmphasisSpacing.Golden.Archive
import EmphasisSpacing.Golden.Comment
import EmphasisSpacing.Text.Integer

/-!
# Regenerating golden members

An archive of examples holds documents and, behind each, a golden member with what formatting makes of it.
Regenerating drops all golden members and writes them anew, under the settings of the comment of the
archive.
-/

namespace EmphasisSpacing

namespace Golden

/-! ### One archive -/

/-- The end of the name of a document. -/
def documentEnding : Bytes := bytes ".md"

/-- The end of the name of a golden member. -/
def goldenEnding : Bytes := bytes ".golden"

/-- Whether a member is a golden one. -/
def isGolden (m : Member) : Bool := m.name.endsWith goldenEnding

/-- Whether a member is a document. -/
def isDocument (m : Member) : Bool := m.name.endsWith documentEnding

/-- The golden member of a document; nothing for other members. -/
def goldenOf? (settings : Settings) (m : Member) : Option Member :=
  (Bytes.dropSuffix? documentEnding m.name).map fun stem =>
    ⟨stem ++ goldenEnding, format settings m.data⟩

/-- A member, and behind a document its golden member. -/
def withGolden (settings : Settings) (m : Member) : List Member :=
  m :: (goldenOf? settings m).toList

/-- The members of an archive that are not golden ones. -/
def sources (a : Archive) : List Member := a.members.filter (!isGolden ·)

/-- The archive with its golden members anew. -/
def regenerate (settings : Settings) (a : Archive) : Archive :=
  { a with members := (sources a).flatMap (withGolden settings) }

/-- The number of documents in an archive. -/
def caseCount (a : Archive) : Nat := ((sources a).filter isDocument).length

/-- What regenerating takes from elsewhere. -/
structure Tools where
  codec : Archive.Codec
  /-- Settings with those of a comment on top; nothing when it holds no settings. -/
  settings? : (base : Settings) → (comment : Bytes) → Option Settings

/-- The standard tools. -/
def Tools.standard : Tools := ⟨.standard, Comment.settings?⟩

/-- A regenerated archive as text, and the number of its documents; nothing when the comment holds no
settings. -/
def regenerateText? (tools : Tools) (text : Bytes) : Option (Bytes × Nat) :=
  let a := tools.codec.read text
  (tools.settings? .standard a.comment).map fun settings =>
    (tools.codec.write (regenerate settings a), caseCount a)

/-! ### Archives in a folder -/

/-- Why archives cannot be regenerated. -/
inductive Error where
  | badPattern (root : Bytes)
  | noArchives (root : Bytes)
  | file (path : Bytes) (error : FileError)
  | badComment (path : Bytes)
  deriving DecidableEq, Repr

/-- The words for an error. -/
def Error.message : Error → Bytes
  | .badPattern root => bytes "glob " ++ root ++ bytes ": syntax error in pattern"
  | .noArchives root => bytes "no txtar archives found under " ++ root
  | .file path e => path ++ bytes ": " ++ e.message
  | .badComment path => path ++ bytes ": config comment"

/-- Regenerates the archive at a path; the result is the number of its documents. -/
def onFile (tools : Tools) (fs : FileSystem) (path : Bytes) : Except Error (FileSystem × Nat) := do
  let text ← (fs.read path).mapError (.file path)
  match regenerateText? tools text with
  | none => .error (.badComment path)
  | some (text, cases) =>
    let fs ← (fs.write path text).mapError (.file path)
    return (fs, cases)

/-- The report on a regenerated archive. -/
def report (path : Bytes) (cases : Nat) : Bytes :=
  bytes "wrote " ++ path ++ bytes " (" ++ Integer.ofNat cases ++ bytes " case(s))\n"

/-- What a run leaves: the files, the reports, and the error that ended it. -/
structure Outcome where
  files : FileSystem
  reports : Bytes
  error : Option Error
  deriving DecidableEq, Repr

/-- Regenerates archives one after the other, up to the first failure. -/
def onFiles (tools : Tools) : FileSystem → List Bytes → Outcome
  | fs, [] => ⟨fs, [], none⟩
  | fs, path :: rest =>
    match onFile tools fs path with
    | .error e => ⟨fs, [], some e⟩
    | .ok (fs, cases) =>
      let o := onFiles tools fs rest
      { o with reports := report path cases ++ o.reports }

/-- The folder when none is named. -/
def standardRoot : Bytes := bytes "testdata"

/-- Regenerates the archives of the folder that the first argument names. -/
def run (tools : Tools) (fs : FileSystem) (arguments : List Bytes) : Outcome :=
  let root := arguments.head?.getD standardRoot
  match Glob.paths? fs (Path.join [root, bytes "*.txtar"]) with
  | none => ⟨fs, [], some (.badPattern root)⟩
  | some [] => ⟨fs, [], some (.noArchives root)⟩
  | some paths => onFiles tools fs paths

end Golden

end EmphasisSpacing
