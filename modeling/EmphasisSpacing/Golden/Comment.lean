import EmphasisSpacing.Settings.Switch
import EmphasisSpacing.Yaml.Value

/-!
# Settings in the comment of an archive

The comment of an archive is a YAML mapping of settings on top of given ones. Keys have to be written
exactly; unknown ones are passed over. More words than elsewhere stand for true and false.
-/

namespace EmphasisSpacing

namespace Comment

/-- Words for true. -/
def yesWords : List Bytes := ["y", "Y", "yes", "Yes", "YES", "on", "On", "ON"].map bytes

/-- Words for false. -/
def noWords : List Bytes := ["n", "N", "no", "No", "NO", "off", "Off", "OFF"].map bytes

/-- The setting with a key. -/
def switch? (key : Bytes) : Option Switch := Switch.all.find? (·.field == key)

/-- What a value says about a setting: nothing at all for null. No answer when it is no truth value. -/
def truth? : Yaml.Node → Option (Option Bool)
  | .scalar s => do
    match ← s.value? with
    | .null => return none
    | .bool b => return some b
    | .text t =>
      if yesWords.contains t then return some true
      else if noWords.contains t then return some false
      else none
    | _ => none
  | _ => none

/-- What an entry of the comment sets; nothing for null and for unknown keys. No answer when the entry is
faulty. -/
def setting? (e : Yaml.Node × Yaml.Node) : Option (Option (Switch × Bool)) := do
  let _ ← e.1.keyValue?
  match e.1.name?.bind switch? with
  | some k => return (← truth? e.2).map (k, ·)
  | none => return none

/-- Settings with others on top; the first of several wins. -/
def onTop (base : Settings) (given : List (Switch × Bool)) : Settings :=
  Switch.settings fun k => (given.lookup k).getD (k.get base)

/-- Settings with those of a comment on top; nothing when it is no mapping of settings. -/
def settings? (base : Settings) (comment : Bytes) : Option Settings := do
  match ← Yaml.Node.ofText? comment with
  | none => return base
  | some (.mapping entries) =>
    let all ← Yaml.Node.allEntries? (comment.length + 2) entries
    return onTop base ((← all.mapM setting?).filterMap id)
  | some (.scalar s) => if s.value? == some .null then return base else none
  | some _ => none

end Comment

end EmphasisSpacing
