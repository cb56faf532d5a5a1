/-!
# Styled terminal text

A styled text is a list of spans, each with a style of its own. `render` writes the terminal codes
only where the style changes, and goes back to the plain style at the end. Where several
attributes change at once, the colour comes first, then the weight, then the underline.

Also here are the two ways to pad a text to a width.
-/

namespace WordC.Text

/-- The colours in use. -/
inductive Color
  | red | green | yellow | blue
deriving DecidableEq, Repr

/-- The terminal code that selects a colour. -/
def Color.code : Color → String
  | .red => "31"
  | .green => "32"
  | .yellow => "33"
  | .blue => "34"

/-- How a span of text is shown. -/
structure Style where
  color : Option Color := none
  bold : Bool := false
  underline : Bool := false
deriving DecidableEq, Repr

namespace Style

/-- No colour, normal weight, no underline. -/
def plain : Style := {}

/-- Red letters. -/
def red : Style := { color := some .red }

/-- Green letters. -/
def green : Style := { color := some .green }

/-- Yellow letters. -/
def yellow : Style := { color := some .yellow }

/-- Blue letters. -/
def blue : Style := { color := some .blue }

/-- Bold letters. -/
def strong : Style := { bold := true }

/-- Red and bold letters. -/
def alarm : Style := { color := some .red, bold := true }

/-- Underlined letters. -/
def underlined : Style := { underline := true }

end Style

/-- The escape sequence with the given code. -/
def escape (code : String) : String := "\x1b[" ++ code ++ "m"

/-- The escape sequences that lead from one style to another. -/
def Style.shift (old new : Style) : String :=
  (if old.color = new.color then "" else escape ((new.color.map Color.code).getD "39")) ++
  (if old.bold = new.bold then "" else escape (if new.bold then "1" else "22")) ++
  (if old.underline = new.underline then "" else escape (if new.underline then "4" else "24"))

@[simp] theorem Style.shift_self (s : Style) : s.shift s = "" := by simp [Style.shift]

/-- A piece of text with its style. -/
structure Span where
  style : Style
  text : String
deriving DecidableEq, Repr

/-- Write the spans, starting from a given style and ending in the plain one. -/
def renderFrom (style : Style) : List Span → String
  | [] => style.shift .plain
  | span :: rest => style.shift span.style ++ span.text ++ renderFrom span.style rest

/-- Write the spans with the terminal codes between them. -/
def render (spans : List Span) : String := renderFrom .plain spans

/-- Fill up with blanks on the right. -/
def padRight (width : Nat) (text : String) : String :=
  text ++ String.ofList (List.replicate (width - text.length) ' ')

/-- Fill up with blanks on the left. -/
def padLeft (width : Nat) (text : String) : String :=
  String.ofList (List.replicate (width - text.length) ' ') ++ text

end WordC.Text
