import EmphasisSpacing.Text.LowerCase
import EmphasisSpacing.Text.WhiteSpace

/-!
# Themes

A style is the terminal sequence that turns it on; a theme gives one to each part of a rendered hint.
-/

namespace EmphasisSpacing

/-- A terminal style: the sequence that turns it on, empty for plain text. -/
structure Style where
  lead : Bytes
  deriving DecidableEq, Repr

namespace Style

/-- The sequence that turns all styles off. -/
def reset : Bytes := bytes "\x1b[0m"

/-- `s` in a style. A plain style and an empty text need no sequences. -/
def render (style : Style) (s : Bytes) : Bytes :=
  if style.lead.isEmpty || s.isEmpty then s else style.lead ++ s ++ reset

/-- Plain text. -/
def plain : Style := ⟨[]⟩

/-- Bold text. -/
def bold : Style := ⟨bytes "\x1b[1m"⟩

/-- Faint text. -/
def faint : Style := ⟨bytes "\x1b[2m"⟩

/-- Underlined text. -/
def underline : Style := ⟨bytes "\x1b[4m"⟩

/-- Text in one of the 256 colours. -/
def colour (code : String) : Style := ⟨bytes "\x1b[38;5;" ++ bytes code ++ bytes "m"⟩

/-- Both styles at once. -/
def and (s t : Style) : Style := ⟨s.lead ++ t.lead⟩

end Style

/-- The styles of the parts of a rendered hint. -/
structure Styles where
  location : Style
  message : Style
  source : Style
  marker : Style
  caret : Style
  deriving DecidableEq, Repr

/-- A named set of styles. -/
structure Theme where
  name : Bytes
  styles : Styles
  deriving DecidableEq, Repr

namespace Theme

/-- The theme without any styling. -/
def boring : Theme :=
  ⟨bytes "boring", ⟨.plain, .plain, .plain, .plain, .plain⟩⟩

/-- The theme that is used on a terminal. -/
def standard : Theme :=
  let mark := Style.bold.and (.colour "203")
  ⟨bytes "default", ⟨.bold, .colour "214", .plain, mark, mark⟩⟩

/-- A theme without colours. -/
def dim : Theme :=
  ⟨bytes "dim", ⟨.underline, .faint, .faint, .bold, .bold⟩⟩

/-- All themes, in the order of their names. -/
def all : List Theme := [boring, standard, dim]

/-- The names of all themes, in order. -/
def names : List Bytes := all.map name

/-- The theme of a name, whatever its case and the white space around it. No name at all means the
standard theme. -/
def ofName? (name : Bytes) : Option Theme :=
  if name.isEmpty then some standard
  else
    let wanted := LowerCase.text (WhiteSpace.trim name)
    all.find? fun t => t.name == wanted

end Theme

end EmphasisSpacing
