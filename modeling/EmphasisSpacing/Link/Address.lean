import EmphasisSpacing.Link.Percent
import EmphasisSpacing.Text.Integer
import EmphasisSpacing.Text.Quoted

/-!
# Addresses of documents

Reading and writing of resource addresses (scheme, user, host, path, query, fragment). Reading is
lenient about what a host is and strict about its form; every refusal has a cause of its own.

`Address.write` gives the usual form of an address back: the scheme in lower case, and parts encoded
again only where they were not written in a valid form.
-/

namespace EmphasisSpacing

/-- The user of an address, with a password if one was given. -/
structure User where
  name : Bytes
  password : Option Bytes
  deriving DecidableEq, Repr

/-- A resource address, its parts decoded. -/
structure Address where
  /-- The scheme in lower case; empty for a reference without one. -/
  scheme : Bytes
  /-- What follows the scheme of an address without slashes, as written. -/
  rootless : Bytes
  user : Option User
  host : Bytes
  /-- Whether the address has a scheme and a rooted path but no host part at all. -/
  omitHost : Bool
  path : Bytes
  /-- The path as written, when encoding the decoded path does not give it back. -/
  rawPath : Bytes
  /-- Whether the address ends with a question mark and has no query. -/
  emptyQuery : Bool
  query : Bytes
  fragment : Bytes
  /-- The fragment as written, when encoding the decoded fragment does not give it back. -/
  rawFragment : Bytes
  deriving DecidableEq, Repr

namespace Address

/-- Why a text is no address. -/
inductive Fault where
  | controlByte
  | missingScheme
  | colonInFirstSegment
  | missingBracket
  | badPort (shown : Bytes)
  | badUser
  | encoding (e : Percent.DecodeError)
  deriving DecidableEq, Repr

/-- The words for a fault. -/
def Fault.message : Fault → Bytes
  | .controlByte => bytes "net/url: invalid control character in URL"
  | .missingScheme => bytes "missing protocol scheme"
  | .colonInFirstSegment => bytes "first path segment in URL cannot contain colon"
  | .missingBracket => bytes "missing ']' in host"
  | .badPort shown => bytes "invalid port " ++ Quoted.text shown ++ bytes " after host"
  | .badUser => bytes "net/url: invalid userinfo"
  | .encoding (.badEscape shown) => bytes "invalid URL escape " ++ Quoted.text shown
  | .encoding (.badHostByte b) =>
    bytes "invalid character " ++ Quoted.text [b] ++ bytes " in host name"

/-- A text that is no address, as far as it was looked at, and why. -/
structure Error where
  shown : Bytes
  fault : Fault
  deriving DecidableEq, Repr

/-- The words for an error. -/
def Error.message (e : Error) : Bytes :=
  bytes "parse " ++ Quoted.text e.shown ++ bytes ": " ++ e.fault.message

/-! ### Reading -/

/-- The address without any part. -/
def blank : Address :=
  ⟨[], [], none, [], false, [], [], false, [], [], []⟩

/-- The parts before and after the first `b`, the second empty when `b` does not occur. -/
def cutOr (b : UInt8) (s : Bytes) : Bytes × Bytes := (s.cutAt b).getD (s, [])

/-- Whether a path starts with a slash. -/
def isRooted (s : Bytes) : Bool := s.head? == some Bytes.slash

/-- Whether `b` may stand in a scheme, where a letter comes first. -/
def isSchemeByte (b : UInt8) : Bool := Bytes.isAlnum b || b == 0x2B || b == 0x2D || b == 0x2E

/-- The scheme of an address and what follows its colon. A text whose beginning is no scheme has none;
an empty scheme is a fault. -/
def splitScheme (s : Bytes) : Except Fault (Bytes × Bytes) :=
  match s.span isSchemeByte with
  | ([], 0x3A :: _) => .error .missingScheme
  | (b :: scheme, 0x3A :: rest) =>
    if Bytes.isLetter b then .ok (b :: scheme, rest) else .ok ([], s)
  | _ => .ok ([], s)

/-- Whether a text is empty or a colon and digits. -/
def isPort (s : Bytes) : Bool :=
  match s with
  | [] => true
  | b :: digits => b == 0x3A && digits.all Bytes.isDigit

/-- Decodes a part, with the fault of an address. -/
def decodePart (part : Percent.Part) (s : Bytes) : Except Fault Bytes :=
  (Percent.decode part s).mapError .encoding

/-- The position of the first occurrence of the encoded percent sign that starts a zone. -/
def zoneStart? : Bytes → Option Nat
  | [] => none
  | b :: s => if Bytes.startsWith (b :: s) [0x25, 0x32, 0x35] then some 0 else (zoneStart? s).map (· + 1)

/-- The host of an address, with its port. -/
def readHost (s : Bytes) : Except Fault Bytes :=
  if s.head? == some 0x5B then
    match Bytes.cutAtLast 0x5D s with
    | none => .error .missingBracket
    | some (inside, port) =>
      if !isPort port then .error (.badPort port)
      else match zoneStart? inside with
        | none => decodePart .host s
        | some z => do
          let name ← decodePart .host (inside.take z)
          let zone ← decodePart .zone (inside.drop z)
          let rest ← decodePart .host (0x5D :: port)
          return name ++ zone ++ rest
  else match Bytes.cutAtLast 0x3A s with
    | some (_, port) =>
      if isPort (0x3A :: port) then decodePart .host s else .error (.badPort (0x3A :: port))
    | none => decodePart .host s

/-- The bytes that the user of an address may hold as written. -/
def isUserByte (b : UInt8) : Bool :=
  Bytes.isAlnum b ||
    [0x2D, 0x2E, 0x5F, 0x3A, 0x7E, 0x21, 0x24, 0x26, 0x27, 0x28, 0x29, 0x2A, 0x2B, 0x2C, 0x3B, 0x3D,
      0x25, 0x40].contains b

/-- The user of an address. -/
def readUser (s : Bytes) : Except Fault User :=
  if !s.all isUserByte then .error .badUser
  else match s.cutAt 0x3A with
    | none => return ⟨← decodePart .user s, none⟩
    | some (name, password) => do
      let name ← decodePart .user name
      let password ← decodePart .user password
      return ⟨name, some password⟩

/-- The user and the host of an address. A fault of the host comes first. -/
def readAuthority (s : Bytes) : Except Fault (Option User × Bytes) :=
  match Bytes.cutAtLast 0x40 s with
  | none => return (none, ← readHost s)
  | some (user, host) => do
    let host ← readHost host
    let user ← readUser user
    return (some user, host)

/-- The address with the given path, as written. -/
def withPath (a : Address) (s : Bytes) : Except Fault Address := do
  let path ← decodePart .path s
  return { a with path := path, rawPath := if Percent.encode .path path == s then [] else s }

/-- The query behind a path, and whether it is an empty one. -/
def splitQuery (s : Bytes) : Bytes × Bytes × Bool :=
  match s.cutAt 0x3F with
  | none => (s, [], false)
  | some (rest, query) => (rest, query, query.isEmpty)

/-- An address without fragment. -/
def readPlain (s : Bytes) : Except Fault Address := do
  if s.any (fun b => b < 0x20 || b == 0x7F) then throw .controlByte
  if s == [Bytes.star] then return { blank with path := s }
  let (scheme, rest) ← splitScheme s
  let (rest, query, emptyQuery) := splitQuery rest
  let a := { blank with scheme := scheme.map Bytes.lowerAscii, query := query, emptyQuery := emptyQuery }
  if !isRooted rest then
    if !scheme.isEmpty then return { a with rootless := rest }
    if (cutOr Bytes.slash rest).1.contains 0x3A then throw .colonInFirstSegment
  if rest.startsWith [Bytes.slash, Bytes.slash] &&
      (!scheme.isEmpty || !rest.startsWith [Bytes.slash, Bytes.slash, Bytes.slash]) then
    let (authority, path) := (rest.drop 2).span (· != Bytes.slash)
    let (user, host) ← readAuthority authority
    withPath { a with user := user, host := host } path
  else
    withPath { a with omitHost := !scheme.isEmpty && isRooted rest } rest

/-- Reads an address. -/
def read (s : Bytes) : Except Error Address :=
  let (plain, fragment) := cutOr 0x23 s
  match readPlain plain with
  | .error f => .error ⟨plain, f⟩
  | .ok a =>
    if fragment.isEmpty then .ok a
    else match decodePart .fragment fragment with
      | .error f => .error ⟨s, f⟩
      | .ok decoded =>
        .ok { a with
          fragment := decoded
          rawFragment := if Percent.encode .fragment decoded == fragment then [] else fragment }

/-! ### Writing -/

/-- Whether a part as written is in a valid form already. -/
def isWritten (part : Percent.Part) (s : Bytes) : Bool :=
  s.all fun b =>
    part.keeps b ||
      [0x21, 0x24, 0x26, 0x27, 0x28, 0x29, 0x2A, 0x2B, 0x2C, 0x3B, 0x3D, 0x3A, 0x40, 0x5B, 0x5D,
        0x25].contains b

/-- A part as written if that form is valid and means the same, and encoded otherwise. -/
def writePart (part : Percent.Part) (raw decoded : Bytes) : Bytes :=
  let same := match Percent.decode part raw with
    | .ok d => d == decoded
    | .error _ => false
  if !raw.isEmpty && isWritten part raw && same then raw else Percent.encode part decoded

/-- A user as written in an address. -/
def writeUser (u : User) : Bytes :=
  match u.password with
  | none => Percent.encode .user u.name
  | some p => Percent.encode .user u.name ++ 0x3A :: Percent.encode .user p

/-- The path of an address as written. -/
def writePath (a : Address) : Bytes :=
  if a.path == [Bytes.star] then a.path else writePart .path a.rawPath a.path

/-- The user and the host of an address as written, with the slashes in front. -/
def writeAuthority (a : Address) : Bytes :=
  if a.scheme.isEmpty && a.host.isEmpty && a.user.isNone then []
  else if a.omitHost && a.host.isEmpty && a.user.isNone then []
  else
    (if a.host.isEmpty && a.path.isEmpty && a.user.isNone then [] else [Bytes.slash, Bytes.slash]) ++
      (match a.user with
        | some u => writeUser u ++ [0x40]
        | none => []) ++
      Percent.encode .host a.host

/-- The part of an address between scheme and query. -/
def writeMiddle (a : Address) : Bytes :=
  if !a.rootless.isEmpty then a.rootless
  else
    let authority := writeAuthority a
    let path := writePath a
    let gap :=
      if !path.isEmpty && !isRooted path && !a.host.isEmpty then [Bytes.slash]
      else if a.scheme.isEmpty && authority.isEmpty && (cutOr Bytes.slash path).1.contains 0x3A then
        [0x2E, Bytes.slash]
      else []
    authority ++ gap ++ path

/-- An address in its usual form. -/
def write (a : Address) : Bytes :=
  (if a.scheme.isEmpty then [] else a.scheme ++ [0x3A]) ++ writeMiddle a ++
    (if a.emptyQuery || !a.query.isEmpty then 0x3F :: a.query else []) ++
    (if a.fragment.isEmpty then [] else 0x23 :: writePart .fragment a.rawFragment a.fragment)

/-- An address in its usual form with the password hidden. -/
def writeHidden (a : Address) : Bytes :=
  match a.user with
  | some ⟨name, some password⟩ =>
    Bytes.replaceFirst (writeUser ⟨name, some password⟩ ++ [0x40]) (name ++ bytes ":***@") (write a)
  | _ => write a

/-- A host without the colon of an empty port. -/
def dropEmptyPort (host : Bytes) : Bytes :=
  match Bytes.cutAtLast 0x3A host with
  | some (name, []) => name
  | _ => host

end Address

end EmphasisSpacing
