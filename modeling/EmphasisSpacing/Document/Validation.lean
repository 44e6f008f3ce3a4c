import EmphasisSpacing.Text.CodePoint
import EmphasisSpacing.Text.Utf8

/-!
# Is it text?

A document is refused when it is not well-formed UTF-8 or looks binary: it holds a NUL, or it has some
length and a good share of it are control characters. The first fault from the left decides, and the
share is looked at last.
-/

namespace EmphasisSpacing

/-- Why a document is refused. -/
inductive TextFault where
  | invalidUtf8
  | binary
  deriving DecidableEq, Repr

/-- The words for a refusal. -/
def TextFault.message : TextFault → String
  | .invalidUtf8 => "invalid utf-8 input"
  | .binary => "binary input detected"

namespace TextFault

/-- The length from which on the share of control characters counts. -/
def minSample : Nat := 64

/-- The share of control characters, in percent of the bytes, that makes a document binary. -/
def maxControlPercent : Nat := 2

/-- Whether a document of `length` bytes holds too many control characters. -/
def tooManyControls (controls length : Nat) : Bool :=
  minSample ≤ length && length * maxControlPercent ≤ controls * 100

/-- The fault of a document of which `length` bytes with `controls` control characters were read, and
of whose rest the first `skip` bytes belong to the last character. -/
def ofRest : (skip controls length : Nat) → Bytes → Option TextFault
  | _, controls, length, [] => if tooManyControls controls length then some .binary else none
  | skip + 1, controls, length, _ :: s => ofRest skip controls (length + 1) s
  | 0, controls, length, b :: s =>
    match Utf8.first? b s with
    | none => some .invalidUtf8
    | some (c, more) =>
      if c.toNat == 0 then some .binary
      else
        let controls := if CodePoint.isControl (codeOf c) then controls + 1 else controls
        ofRest more controls (length + 1) s

end TextFault

/-- What is wrong with a document; nothing when it is text. -/
def textFault? (s : Bytes) : Option TextFault := TextFault.ofRest 0 0 0 s

end EmphasisSpacing
