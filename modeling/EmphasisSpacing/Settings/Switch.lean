import EmphasisSpacing.Settings
import EmphasisSpacing.Text.LowerCase

/-!
# The switches by name

Each of the seven settings has a field with a name of its own in settings files. A table gives it a key
under which it is kept, a variable of the environment and a flag on the command line.
-/

namespace EmphasisSpacing

/-- One of the settings. -/
inductive Switch where
  | trimInside
  | spaceCjkBold
  | spaceAsciiBold
  | spaceCjkItalic
  | skipCodeBlocks
  | skipInlineCode
  | skipFrontMatter
  deriving DecidableEq, Repr

namespace Switch

/-- All settings, in the order in which they are written and reported. -/
def all : List Switch :=
  [.trimInside, .spaceCjkBold, .spaceAsciiBold, .spaceCjkItalic, .skipCodeBlocks, .skipInlineCode,
    .skipFrontMatter]

/-- The name of the field, as settings files have it. -/
def field : Switch → Bytes
  | .trimInside => bytes "removeInternalBoldSpaces"
  | .spaceCjkBold => bytes "spaceBetweenChineseAndBold"
  | .spaceAsciiBold => bytes "spaceBetweenEnglishAndBold"
  | .spaceCjkItalic => bytes "spaceBetweenChineseAndItalic"
  | .skipCodeBlocks => bytes "skipCodeBlocks"
  | .skipInlineCode => bytes "skipInlineCode"
  | .skipFrontMatter => bytes "skipFrontMatter"

/-- The key under which the setting is kept. -/
def key : Switch → Bytes
  | .trimInside => bytes "removeInternalBoldSpaces"
  | .spaceCjkBold => bytes "spaceBetweenChineseAndBold"
  | .spaceAsciiBold => bytes "spaceBetweenEnglishAndBold"
  | .spaceCjkItalic => bytes "spaceBetweenChineseAndItalic"
  | .skipCodeBlocks => bytes "skipCodeBlocks"
  | .skipInlineCode => bytes "skipInlineCode"
  | .skipFrontMatter => bytes "skipFrontMatter"

/-- The variable of the environment. -/
def envName : Switch → Bytes
  | .trimInside => bytes "EMSPACE_REMOVE_INTERNAL_BOLD_SPACES"
  | .spaceCjkBold => bytes "EMSPACE_SPACE_BETWEEN_CHINESE_AND_BOLD"
  | .spaceAsciiBold => bytes "EMSPACE_SPACE_BETWEEN_ENGLISH_AND_BOLD"
  | .spaceCjkItalic => bytes "EMSPACE_SPACE_BETWEEN_CHINESE_AND_ITALIC"
  | .skipCodeBlocks => bytes "EMSPACE_SKIP_CODE_BLOCKS"
  | .skipInlineCode => bytes "EMSPACE_SKIP_INLINE_CODE"
  | .skipFrontMatter => bytes "EMSPACE_SKIP_FRONT_MATTER"

/-- The flag on the command line. -/
def flag : Switch → Bytes
  | .trimInside => bytes "remove-internal-spaces"
  | .spaceCjkBold => bytes "space-chinese-bold"
  | .spaceAsciiBold => bytes "space-english-bold"
  | .spaceCjkItalic => bytes "space-chinese-italic"
  | .skipCodeBlocks => bytes "skip-code-blocks"
  | .skipInlineCode => bytes "skip-inline-code"
  | .skipFrontMatter => bytes "skip-front-matter"

/-- What the flag does, for the help text. -/
def usage : Switch → Bytes
  | .trimInside => bytes "Remove blanks just inside *, ** and *** spans"
  | .spaceCjkBold => bytes "Add a space between bold markers and adjacent CJK text"
  | .spaceAsciiBold => bytes "Add a space between bold markers and adjacent ASCII letters or digits"
  | .spaceCjkItalic => bytes "Add a space between italic markers and adjacent CJK text"
  | .skipCodeBlocks => bytes "Leave fenced code blocks untouched"
  | .skipInlineCode => bytes "Leave inline code untouched"
  | .skipFrontMatter => bytes "Leave a leading front matter block untouched"

/-- The value of a setting. -/
def get (s : Settings) : Switch → Bool
  | .trimInside => s.trimInside
  | .spaceCjkBold => s.spaceCjkBold
  | .spaceAsciiBold => s.spaceAsciiBold
  | .spaceCjkItalic => s.spaceCjkItalic
  | .skipCodeBlocks => s.skipCodeBlocks
  | .skipInlineCode => s.skipInlineCode
  | .skipFrontMatter => s.skipFrontMatter

/-- The settings with the given values. -/
def settings (value : Switch → Bool) : Settings where
  trimInside := value .trimInside
  spaceCjkBold := value .spaceCjkBold
  spaceAsciiBold := value .spaceAsciiBold
  spaceCjkItalic := value .spaceCjkItalic
  skipCodeBlocks := value .skipCodeBlocks
  skipInlineCode := value .skipInlineCode
  skipFrontMatter := value .skipFrontMatter

end Switch

end EmphasisSpacing
