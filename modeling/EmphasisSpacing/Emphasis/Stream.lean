import EmphasisSpacing.Document.Validation
import EmphasisSpacing.Emphasis.Format

/-!
# From a reader to a writer

Formatting a document that comes from somewhere and goes somewhere. Either end can be missing or fail.
The document is read to its end and checked before anything is changed; a failure to write still gives
the outcome, because the formatting itself was done.
-/

namespace EmphasisSpacing

/-- Where a document comes from. -/
inductive Reader where
  | absent
  | holding (content : Bytes)
  /-- A reader that gives some content and then fails. -/
  | broken (content fault : Bytes)
  deriving DecidableEq, Repr

/-- Where a text goes. -/
inductive Writer where
  | absent
  | working
  /-- A writer on which every write fails. -/
  | broken (fault : Bytes)
  deriving DecidableEq, Repr

/-- The outcome of formatting one document. -/
structure Outcome where
  text : Bytes
  formatted : Bytes
  changed : Bool
  deriving DecidableEq, Repr

/-- The outcome of formatting a text. -/
def Outcome.of (settings : Settings) (text : Bytes) : Outcome :=
  let formatted := format settings text
  ⟨text, formatted, formatted != text⟩

/-- Why a document could not be formatted from a reader to a writer. -/
inductive StreamError where
  | noReader
  | read (fault : Bytes)
  | notText (fault : TextFault)
  /-- The document was formatted, but the result could not be written. -/
  | write (fault : Bytes) (outcome : Outcome)
  deriving DecidableEq, Repr

namespace StreamError

/-- The words for an error. -/
def message : StreamError → Bytes
  | .noReader => bytes "format: reader is nil"
  | .read fault => bytes "format: read: " ++ fault
  | .notText fault => bytes "format: " ++ bytes fault.message
  | .write fault _ => bytes "format: write: " ++ fault

/-- What is wrong with the document itself, if that is the cause. -/
def textFault? : StreamError → Option TextFault
  | .notText fault => some fault
  | _ => none

/-- The outcome that an error leaves. -/
def outcome? : StreamError → Option Outcome
  | .write _ outcome => some outcome
  | _ => none

end StreamError

/-- The whole content of a reader. -/
def Reader.content : Reader → Except StreamError Bytes
  | .absent => .error .noReader
  | .holding content => .ok content
  | .broken _ fault => .error (.read fault)

/-- The document of a reader, if it is text. -/
def Reader.document (reader : Reader) : Except StreamError Bytes := do
  let text ← reader.content
  match textFault? text with
  | some fault => .error (.notText fault)
  | none => .ok text

/-- Formats the document of a reader and writes the result. -/
def formatStream (settings : Settings) (reader : Reader) (writer : Writer) :
    Except StreamError Outcome := do
  let text ← reader.document
  let outcome := Outcome.of settings text
  match writer with
  | .broken fault => .error (.write fault outcome)
  | _ => .ok outcome

end EmphasisSpacing
