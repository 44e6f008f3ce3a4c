import EmphasisSpacing.Settings
import EmphasisSpacing.Text.WhiteSpace

/-!
# Blocks that are left alone

Fenced code and display math run over several lines. `Block.State` says in which blocks a line lies, and
`Block.step` moves it over one line and tells whether the line is *open*, that is, may be changed. That
no line lies in both kinds of blocks is nothing the state knows: it is kept by every step.

A fence closes only with the mark that opened it; inside math no fence is seen, and inside code no math
delimiter is. A thematic break is closed to changes too, since its stars are no markers.
-/

namespace EmphasisSpacing

namespace Block

/-- The two marks that fence code. -/
inductive Fence where
  | graves
  | tildes
  deriving DecidableEq, Repr

/-- The three bytes of a fence mark. -/
def Fence.bytes : Fence → Bytes
  | .graves => [0x60, 0x60, 0x60]
  | .tildes => [0x7E, 0x7E, 0x7E]

/-- What is known of the blocks around a line. -/
structure State where
  /-- Whether the line lies in code. -/
  inCode : Bool
  /-- The mark that opened the code; empty outside of code. -/
  fence : Bytes
  /-- Whether the line lies in display math. -/
  inMath : Bool
  deriving DecidableEq, Repr

/-- No block. -/
def State.text : State := ⟨false, [], false⟩

/-- The fence mark that a line, trimmed, starts with. -/
def fence? (line : Bytes) : Option Fence :=
  if line.startsWith Fence.graves.bytes then some .graves
  else if line.startsWith Fence.tildes.bytes then some .tildes
  else none

/-- The delimiter of display math. -/
def mathMark : Bytes := [Bytes.dollar, Bytes.dollar]

/-- Whether a line, trimmed, is display math from start to end. The delimiter alone is not. -/
def isMathLine (line : Bytes) : Bool :=
  4 ≤ line.length && line.startsWith mathMark && line.endsWith mathMark

/-- Whether a line, trimmed, is a thematic break: three or more of one of `-`, `*` and `_`, with blanks
between them at will. -/
def isThematicBreak (line : Bytes) : Bool :=
  match line with
  | [] => false
  | mark :: _ =>
    (mark == 0x2D || mark == Bytes.star || mark == 0x5F) &&
      line.all (fun b => b == mark || Bytes.isBlank b) && 3 ≤ line.count mark

/-- The state after a line that starts with a fence mark and is no math: it opens code, or closes the
code that the same mark opened. -/
def State.fenced (state : State) (f : Fence) : State :=
  if !state.inCode then { state with inCode := true, fence := f.bytes }
  else if f.bytes == state.fence then { state with inCode := false, fence := [] }
  else state

/-- The state after a line that starts with the math delimiter and is no code. -/
def State.delimited (state : State) (trimmed : Bytes) : State :=
  if isMathLine trimmed then state else { state with inMath := !state.inMath }

/-- The state after a line, and whether the line may be changed. -/
def step (settings : Settings) (state : State) (line : Bytes) : State × Bool :=
  let trimmed := WhiteSpace.trim line
  let fence := if settings.skipCodeBlocks && !state.inMath then fence? trimmed else none
  match fence with
  | some f => (state.fenced f, false)
  | none =>
    if !state.inCode && trimmed.startsWith mathMark then (state.delimited trimmed, false)
    else (state, !state.inCode && !state.inMath && !isThematicBreak trimmed)

end Block

end EmphasisSpacing
