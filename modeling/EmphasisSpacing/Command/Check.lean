import EmphasisSpacing.Command.Fix

/-!
# Reporting documents

Nothing is changed: the names of the documents that would change are written, or their differences. The
command ends without success if there is one.
-/

namespace EmphasisSpacing

namespace Check

/-- What the command is asked for. -/
structure Options where
  settings : Settings
  verbose : Bool
  /-- Show differences instead of names. -/
  diff : Bool
  excludes : List Bytes
  deriving DecidableEq, Repr

/-- The session after a document that would change was reported. -/
def report (a : Surroundings) (opts : Options) (source : Source) (o : Outcome) (s : Session) :
    Except Failure Session :=
  if opts.diff then Fix.writeDiff a .standard source.name o s
  else .ok (s.display a (source.name ++ [Bytes.lf]))

/-- Looks at the documents one after the other; the result is whether one of them would change. -/
def documents (a : Surroundings) (opts : Options) :
    List Source → Session → Session × Except Failure Bool
  | [], s => (s, .ok false)
  | source :: rest, s =>
    match s.formatSource a opts.settings source with
    | (s, .error message) => (s, .error (Session.sourceFailure source message))
    | (s, .ok o) =>
      if !o.changed then documents a opts rest s
      else match report a opts source o s with
        | .error f => (s, .error f)
        | .ok s =>
          let (s, dirty) := documents a opts rest s
          (s, dirty.map fun _ => true)

/-- Runs the command. -/
def run (a : Surroundings) (opts : Options) (arguments : List Bytes) (s : Session) :
    Session × Except Failure Unit :=
  let (notes, collected) := collect a.matcher s.files a.env opts.excludes arguments
  let s := s.log opts.verbose notes
  match collected with
  | .error e => (s, .error (.general (bytes "open input: " ++ e.message)))
  | .ok sources =>
    match documents a opts sources s with
    | (s, .error f) => (s, .error f)
    | (s, .ok dirty) => (s, if dirty then .error .quiet else .ok ())

end Check

end EmphasisSpacing
