import EmphasisSpacing.Text.Bytes

/-!
# Anchors of a diff

An anchor is a line that occurs exactly once in the old text and exactly once in the new one. Anchors
whose order is the same on both sides are where a diff can be sure that the texts meet; a longest such
chain is computed here.

**The chain.** In the order of the old text, each anchor gets a *level*: the length of the longest
chain that ends with it. `levels` finds it by keeping, for every length, the least new position that a
chain of that length ends with. Reading backwards and taking one anchor of each level, from the
highest down, gives a longest chain.
-/

namespace EmphasisSpacing

namespace Diff

/-- A position between lines: how many old and how many new lines are before it. -/
structure Position where
  old : Nat
  new : Nat
  deriving DecidableEq, Repr

/-- The index of the only occurrence of `s` in `ys`; nothing when it occurs never or again. -/
def uniqueIndex? (s : Bytes) (ys : List Bytes) : Option Nat :=
  if ys.count s == 1 then some (ys.idxOf s) else none

/-- The anchors among the lines of `xs`, the first of which has index `i` in `old`. -/
def anchorsFrom (old new : List Bytes) : (i : Nat) → (xs : List Bytes) → List Position
  | _, [] => []
  | i, s :: xs =>
    let rest := anchorsFrom old new (i + 1) xs
    match uniqueIndex? s old, uniqueIndex? s new with
    | some _, some j => ⟨i, j⟩ :: rest
    | _, _ => rest

/-- The anchors of two texts, in the order of the old one. -/
def anchors (old new : List Bytes) : List Position := anchorsFrom old new 0 old

/-- The list with its first element that is at least `j` replaced by `j`; at the end if there is
none. -/
def lower (j : Nat) : List Nat → List Nat
  | [] => [j]
  | t :: ts => if j ≤ t then j :: ts else t :: lower j ts

/-- Anchors with their levels. `ends` holds, for every length so far, the least new position that a
chain of that length ends with. -/
def levels : (ends : List Nat) → List Position → List (Nat × Position)
  | _, [] => []
  | ends, p :: ps => ((ends.takeWhile (· < p.new)).length + 1, p) :: levels (lower p.new ends) ps

/-- One anchor of each level from `k` down to 1, out of anchors given backwards, put in front of
`acc`. -/
def pick : (k : Nat) → List (Nat × Position) → (acc : List Position) → List Position
  | _, [], acc => acc
  | k, (level, p) :: rest, acc => if level == k then pick (k - 1) rest (p :: acc) else pick k rest acc

/-- A longest chain of anchors whose order is the same on both sides. -/
def chain (old new : List Bytes) : List Position :=
  let ls := levels [] (anchors old new)
  pick (ls.foldl (fun k l => max k l.1) 0) ls.reverse []

/-- The chain of anchors between the start and the end of both texts. -/
def meetings (old new : List Bytes) : List Position :=
  ⟨0, 0⟩ :: chain old new ++ [⟨old.length, new.length⟩]

end Diff

end EmphasisSpacing
