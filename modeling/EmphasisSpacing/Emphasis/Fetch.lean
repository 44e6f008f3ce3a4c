import EmphasisSpacing.Emphasis.Stream
import EmphasisSpacing.Link.Address

/-!
# Documents from the web

Formatting a document that an address names. Only the two web schemes are fetched, and only a reply
with a status from 200 to 299 holds a document. How a reply comes about is not the matter of this
module: it is a value.
-/

namespace EmphasisSpacing

/-- What comes back for a request. -/
inductive Reply where
  /-- There was no response, for the given reason. -/
  | failed (reason : Bytes)
  /-- A response with its status, the words for it, and its body. -/
  | response (status : Int) (statusText : Bytes) (body : Reader)
  deriving DecidableEq, Repr

/-- Why a document on the web could not be formatted. -/
inductive FetchError where
  | noAddress
  | badAddress (error : Address.Error)
  | unsupportedScheme (scheme : Bytes)
  /-- The request failed; `shown` is the address without its password. -/
  | request (shown reason : Bytes)
  | status (statusText : Bytes)
  | stream (error : StreamError)
  deriving DecidableEq, Repr

namespace FetchError

/-- The words for an error. -/
def message : FetchError → Bytes
  | .noAddress => bytes "format http: URL is required"
  | .badAddress e => bytes "format http: build request: " ++ e.message
  | .unsupportedScheme scheme => bytes "format http: unsupported scheme " ++ Quoted.text scheme
  | .request shown reason =>
    bytes "format http: request: Get " ++ Quoted.text shown ++ bytes ": " ++ reason
  | .status statusText => bytes "format http: status " ++ statusText
  | .stream e => e.message

/-- What is wrong with the document itself, if that is the cause. -/
def textFault? : FetchError → Option TextFault
  | .stream e => e.textFault?
  | _ => none

/-- The outcome that an error leaves. -/
def outcome? : FetchError → Option Outcome
  | .stream e => e.outcome?
  | _ => none

end FetchError

namespace Fetch

/-- The schemes of the web. -/
def schemes : List Bytes := [bytes "http", bytes "https"]

/-- The address to request: of one of the web schemes, and without the colon of an empty port. -/
def target (address : Bytes) : Except FetchError Address := do
  if address.isEmpty then throw .noAddress
  let a ← (Address.read address).mapError .badAddress
  if !schemes.contains a.scheme then throw (.unsupportedScheme a.scheme)
  return { a with host := Address.dropEmptyPort a.host }

/-- The body of a reply, when it holds a document. -/
def body (a : Address) : Reply → Except FetchError Reader
  | .failed reason => .error (.request a.writeHidden reason)
  | .response status statusText body =>
    if 200 ≤ status && status ≤ 299 then .ok body else .error (.status statusText)

end Fetch

/-- Formats the document at an address and writes the result, where `replies` answers requests. -/
def formatFetched (settings : Settings) (replies : Address → Reply) (address : Bytes)
    (writer : Writer) : Except FetchError Outcome := do
  let a ← Fetch.target address
  let reader ← Fetch.body a (replies a)
  (formatStream settings reader writer).mapError .stream

end EmphasisSpacing
