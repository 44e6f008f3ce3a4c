import EmphasisSpacing.Diff.Anchor
import EmphasisSpacing.Report.Theme
import EmphasisSpacing.Text.Integer

/-!
# Unified diffs

The difference of two texts as hunks of removed and added lines with three lines of context around
them. Texts meet at the anchors of `EmphasisSpacing.Diff.Anchor`; around each of them the common lines
are extended as far as they go, and what is between two stretches of common lines is removed on one
side and added on the other.
-/

namespace EmphasisSpacing

namespace Diff

/-! ### Hunks -/

/-- A line of a hunk. -/
inductive Edit where
  | keep (line : Bytes)
  | drop (line : Bytes)
  | add (line : Bytes)
  deriving DecidableEq, Repr

namespace Edit

/-- Whether a line is in the old text. -/
def isOld : Edit → Bool
  | .add _ => false
  | _ => true

/-- Whether a line is in the new text. -/
def isNew : Edit → Bool
  | .drop _ => false
  | _ => true

/-- A line of a hunk as written. -/
def render : Edit → Bytes
  | .keep line => 0x20 :: line
  | .drop line => 0x2D :: line
  | .add line => 0x2B :: line

end Edit

/-- A stretch of both texts, with the position where it starts. -/
structure Hunk where
  start : Position
  edits : List Edit
  deriving DecidableEq, Repr

namespace Hunk

/-- The hunk with more lines. -/
def append (h : Hunk) (edits : List Edit) : Hunk := { h with edits := h.edits ++ edits }

/-- The start and the number of lines of one side of a hunk. Lines count from 1, but an empty side is
put at the line before. -/
def side (start count : Nat) : Bytes :=
  Integer.ofNat (if count == 0 then start else start + 1) ++ bytes "," ++ Integer.ofNat count

/-- A hunk as written. -/
def render (h : Hunk) : Bytes :=
  bytes "@@ -" ++ side h.start.old (h.edits.countP Edit.isOld) ++ bytes " +" ++
    side h.start.new (h.edits.countP Edit.isNew) ++ bytes " @@\n" ++ h.edits.flatMap Edit.render

end Hunk

/-! ### Finding the hunks -/

/-- The number of lines of context. -/
def context : Nat := 3

/-- The number of lines with which both lists start. -/
def commonLength : List Bytes → List Bytes → Nat
  | x :: xs, y :: ys => if x == y then commonLength xs ys + 1 else 0
  | _, _ => 0

/-- The elements of a list from index `i` up to index `j`. -/
def slice (xs : List Bytes) (i j : Nat) : List Bytes := (xs.drop i).take (j - i)

/-- How many lines before a meeting are common, without going back behind `done`. -/
def commonBefore (old new : List Bytes) (done m : Position) : Nat :=
  commonLength (slice old done.old m.old).reverse (slice new done.new m.new).reverse

/-- How many lines after a meeting are common. -/
def commonAfter (old new : List Bytes) (m : Position) : Nat :=
  commonLength (old.drop m.old) (new.drop m.new)

/-- The hunks from `done` on, where `hunk` is open and has no lines at first. A meeting that an earlier
one has passed already is left out. -/
def hunksFrom (old new : List Bytes) : (done : Position) → (hunk : Hunk) → List Position → List Hunk
  | _, _, [] => []
  | done, hunk, m :: ms =>
    if m.old < done.old then hunksFrom old new done hunk ms
    else
      let back := commonBefore old new done m
      let ahead := commonAfter old new m
      let start : Position := ⟨m.old - back, m.new - back⟩
      let stop : Position := ⟨m.old + ahead, m.new + ahead⟩
      let hunk := hunk.append
        ((slice old done.old start.old).map .drop ++ (slice new done.new start.new).map .add)
      let common := (slice old start.old stop.old).map Edit.keep
      let atEnd := old.length ≤ stop.old && new.length ≤ stop.new
      let isShort := common.length < context ||
        (!hunk.edits.isEmpty && common.length < 2 * context)
      if !atEnd && isShort then hunksFrom old new stop (hunk.append common) ms
      else
        let closed := if hunk.edits.isEmpty then [] else [hunk.append (common.take context)]
        if atEnd then closed
        else
          let next : Hunk :=
            ⟨⟨stop.old - context, stop.new - context⟩, common.drop (common.length - context)⟩
          closed ++ hunksFrom old new stop next ms

/-- The hunks between two lists of lines. -/
def hunks (old new : List Bytes) : List Hunk :=
  hunksFrom old new ⟨0, 0⟩ ⟨⟨0, 0⟩, []⟩ (meetings old new)

/-! ### The diff of two texts -/

/-- The lines of a text with their ends. A last line without one gets a note that says so. -/
def textLines (s : Bytes) : List Bytes :=
  (Bytes.splitAfterLf s).map fun l =>
    if l.endsWith [Bytes.lf] then l else l ++ bytes "\n\\ No newline at end of file\n"

/-- The unified diff between two versions of a named document; empty when they are equal. -/
def unified (name before after : Bytes) : Bytes :=
  if before == after then []
  else
    let old := bytes "a/" ++ name
    let new := bytes "b/" ++ name
    bytes "diff " ++ old ++ bytes " " ++ new ++ bytes "\n--- " ++ old ++ bytes "\n+++ " ++ new ++
      bytes "\n" ++ (hunks (textLines before) (textLines after)).flatMap Hunk.render

/-! ### Colours -/

/-- The style of a line of a diff: names are bold, positions cyan, additions green, removals red. -/
def lineStyle (line : Bytes) : Style :=
  if line.startsWith (bytes "--- ") || line.startsWith (bytes "+++ ") then .bold
  else if line.startsWith (bytes "@@") then ⟨bytes "\x1b[36m"⟩
  else if line.startsWith (bytes "+") then ⟨bytes "\x1b[32m"⟩
  else if line.startsWith (bytes "-") then ⟨bytes "\x1b[31m"⟩
  else .plain

/-- A line in its style; the line feed stays outside. -/
def colourLine (line : Bytes) : Bytes :=
  match Bytes.dropSuffix? [Bytes.lf] line with
  | some body => (lineStyle line).render body ++ [Bytes.lf]
  | none => (lineStyle line).render line

/-- A diff for a terminal. -/
def coloured (s : Bytes) : Bytes := (Bytes.splitAfterLf s).flatMap colourLine

end Diff

end EmphasisSpacing
