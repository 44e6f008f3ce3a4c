/-!
# Settings

What the formatter does and what it leaves alone. Seven switches, each named for the rule that it
turns on.
-/

namespace EmphasisSpacing

/-- The switches of the formatter. -/
structure Settings where
  /-- Trim blanks just inside emphasis spans. -/
  trimInside : Bool
  /-- Keep a space between bold spans and adjacent CJK text. -/
  spaceCjkBold : Bool
  /-- Keep a space between bold spans and adjacent ASCII letters or digits. -/
  spaceAsciiBold : Bool
  /-- Keep a space between italic spans and adjacent CJK text. -/
  spaceCjkItalic : Bool
  /-- Leave fenced code blocks alone. -/
  skipCodeBlocks : Bool
  /-- Leave inline code alone. -/
  skipInlineCode : Bool
  /-- Leave front matter alone. -/
  skipFrontMatter : Bool
  deriving DecidableEq, Repr

/-- Every switch is on, apart from the spaces around ASCII words. -/
def Settings.standard : Settings where
  trimInside := true
  spaceCjkBold := true
  spaceAsciiBold := false
  spaceCjkItalic := true
  skipCodeBlocks := true
  skipInlineCode := true
  skipFrontMatter := true

/-- Whether bold spans are spaced at all. -/
def Settings.spacesBold (s : Settings) : Bool := s.spaceCjkBold || s.spaceAsciiBold

end EmphasisSpacing
