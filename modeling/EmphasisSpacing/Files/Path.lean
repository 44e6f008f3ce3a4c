import EmphasisSpacing.Text.Bytes

/-!
# Paths

Paths are byte strings with slashes between their parts. Everything here is lexical: no function looks
at a file system. `clean` gives the shortest path with the same meaning, by resolving empty parts, `.`
and `..`.
-/

namespace EmphasisSpacing

namespace Path

/-- The part that means the directory itself. -/
def dot : Bytes := [0x2E]

/-- The part that means the directory above. -/
def dotDot : Bytes := [0x2E, 0x2E]

/-- Whether a path starts at the root. -/
def isAbsolute (p : Bytes) : Bool := p.head? == some Bytes.slash

/-- Resolves parts one after the other. The parts resolved so far are given backwards, and the result
is backwards too. Above the root there is nothing; above a relative path, `..` stays. -/
def resolve (rooted : Bool) : (done : List Bytes) → List Bytes → List Bytes
  | done, [] => done
  | done, p :: ps =>
    if p.isEmpty || p == dot then resolve rooted done ps
    else if p == dotDot then
      match done with
      | [] => resolve rooted (if rooted then [] else [dotDot]) ps
      | d :: ds => resolve rooted (if d == dotDot then dotDot :: d :: ds else ds) ps
    else resolve rooted (p :: done) ps

/-- The parts of a path, resolved. -/
def parts (p : Bytes) : List Bytes :=
  (resolve (isAbsolute p) [] (p.splitOn Bytes.slash)).reverse

/-- The path with the given resolved parts. -/
def ofParts (rooted : Bool) (ps : List Bytes) : Bytes :=
  if rooted then Bytes.slash :: Bytes.joinWith [Bytes.slash] ps
  else if ps.isEmpty then dot
  else Bytes.joinWith [Bytes.slash] ps

/-- The shortest path with the same meaning. -/
def clean (p : Bytes) : Bytes := ofParts (isAbsolute p) (parts p)

/-- Paths put together, empty ones left out, and cleaned; empty when all are. -/
def join (ps : List Bytes) : Bytes :=
  match ps.filter (!·.isEmpty) with
  | [] => []
  | ps => clean (Bytes.joinWith [Bytes.slash] ps)

/-- A path as seen from the root, when `cwd` is the working directory. -/
def absolute (cwd p : Bytes) : Bytes := if isAbsolute p then clean p else join [cwd, p]

/-- The cleaned path up to the last slash. -/
def directory (p : Bytes) : Bytes :=
  match Bytes.cutAtLast Bytes.slash p with
  | none => dot
  | some (before, _) => clean (before ++ [Bytes.slash])

/-- The last part of a path. -/
def base (p : Bytes) : Bytes :=
  if p.isEmpty then dot
  else
    let stripped := (p.reverse.dropWhile (· == Bytes.slash)).reverse
    if stripped.isEmpty then [Bytes.slash]
    else match Bytes.cutAtLast Bytes.slash stripped with
      | none => stripped
      | some (_, last) => last

/-- The end of the last part from its last dot on; empty when it has none. -/
def extension (p : Bytes) : Bytes :=
  let last := match Bytes.cutAtLast Bytes.slash p with
    | none => p
    | some (_, last) => last
  match Bytes.cutAtLast 0x2E last with
  | none => []
  | some (_, ext) => 0x2E :: ext

end Path

end EmphasisSpacing
