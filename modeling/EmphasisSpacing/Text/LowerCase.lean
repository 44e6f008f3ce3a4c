import EmphasisSpacing.Text.Utf8

/-!
# Lower case for comparing with ASCII words

Names of themes, modes, settings and file extensions are compared without regard to case. All of them
are ASCII words, so the only letters that matter are those whose lower-case form is ASCII: the ASCII
capitals, the capital I with a dot above (U+0130) and the Kelvin sign (U+212A). Every other letter
keeps its place and stays outside ASCII either way.
-/

namespace EmphasisSpacing

namespace LowerCase

/-- The lower-case form of a character, as far as it is ASCII. -/
def ofChar (c : Char) : Char :=
  if 'A' ≤ c && c ≤ 'Z' then Char.ofNat (c.toNat + 0x20)
  else if c.toNat == 0x130 then 'i'
  else if c.toNat == 0x212A then 'k'
  else c

/-- A text with its characters in lower case, as far as that is ASCII. -/
def text (s : Bytes) : Bytes := Utf8.encode ((Utf8.decode s).map ofChar)

end LowerCase

end EmphasisSpacing
