import WordC.Position
import WordC.Text.Lines
import WordC.Text.Style

/-!
# Diagnostics

A `Cause` says what is wrong with a program, a `Diagnostic` adds where. `Cause.message` has the
wording of every cause, and `Diagnostic.report` is the text for the terminal: the message, the
position, the source line there, and a caret under the column.
-/

namespace WordC

/-- The two kinds of quoted literal. -/
inductive Quote
  | string | character
deriving DecidableEq, Repr

namespace Quote

/-- The character that opens and closes the literal. -/
def mark : Quote → Char
  | .string => '"'
  | .character => '\''

/-- What the literal is called. -/
def noun : Quote → String
  | .string => "string"
  | .character => "character"

end Quote

/-- What can be wrong with a program. -/
inductive Cause
  /-- A character that begins no token. -/
  | strayCharacter (c : Char)
  /-- A quoted literal that is not closed on its line. -/
  | unclosed (quote : Quote)
  /-- A run of digits that is no number of one word. -/
  | badNumber (lexeme : String)
  /-- A character literal that is not one character of one word. -/
  | badCharacter (text : String)
  /-- A token where another was expected. -/
  | unexpected (found expected : String)
  /-- The end of the tokens where another was expected. -/
  | endOfInput (expected : String)
  | voidVariable (name : String)
  | voidArray (name : String)
  | arrayInitializer (name : String)
  | voidParameter (name : String)
  | arrayParameter (name : String)
  | unsupportedType (text : String)
  | badArraySize (name : String)
  /-- An assignment to something that is no place. -/
  | notAssignable
  | undeclared (name : String)
  /-- An expression that needs more registers than there are. -/
  | outOfRegisters
  | redeclared (name : String)
  | assignedConstant (name : String)
  | returnOutside
  | nestedFunction (name : String)
  /-- A file-scope name that looks like a generated label. -/
  | reservedName (name : String)
  /-- A function whose locals or arguments are out of reach of a frame offset. -/
  | frameTooLarge (function : String)
deriving DecidableEq, Repr

/-- The wording of a cause. -/
def Cause.message : Cause → String
  | .strayCharacter c => "Unexpected character: `" ++ String.singleton c ++ "`"
  | .unclosed quote => "Unterminated " ++ quote.noun ++ " literal"
  | .badNumber lexeme => "Invalid number literal: `" ++ lexeme ++ "`"
  | .badCharacter text => "Invalid character literal: '" ++ text ++ "'"
  | .unexpected found expected => "Expected " ++ expected ++ ", found `" ++ found ++ "`"
  | .endOfInput expected => "Unexpected end of file, expected " ++ expected
  | .voidVariable name => "Variable `" ++ name ++ "` cannot be void"
  | .voidArray name => "Array `" ++ name ++ "` cannot have void elements"
  | .arrayInitializer name => "Array `" ++ name ++ "` cannot have an initializer"
  | .voidParameter name => "Parameter `" ++ name ++ "` cannot be void"
  | .arrayParameter name =>
    "Parameter `" ++ name ++ "` cannot be an array, pass a pointer instead"
  | .unsupportedType text => "Unsupported type: " ++ text
  | .badArraySize name => "Invalid array size for `" ++ name ++ "`"
  | .notAssignable => "Invalid assignment target"
  | .undeclared name => "Undefined identifier: `" ++ name ++ "`"
  | .outOfRegisters => "Register exhausted: all 16 registers are in use"
  | .redeclared name => "Redeclaration of `" ++ name ++ "`"
  | .assignedConstant name => "Cannot assign to const `" ++ name ++ "`"
  | .returnOutside => "Return outside of function"
  | .nestedFunction name =>
    "Function `" ++ name ++ "` cannot be defined inside another function"
  | .reservedName name => "`" ++ name ++ "` is reserved for generated labels"
  | .frameTooLarge function =>
    "Locals of `" ++ function ++ "` exceed the 32768-byte frame limit"

/-- A cause and the place it is reported at. -/
structure Diagnostic where
  pos : Position
  cause : Cause
deriving DecidableEq, Repr

namespace Diagnostic
open Text

/-- The first line of every report. -/
def headline (message : String) : String :=
  render [⟨.alarm, "error"⟩, ⟨.plain, ": " ++ message⟩] ++ "\n"

/-- The source line a position lies on; empty if there is none. -/
def sourceLine (source : String) (p : Position) : String :=
  (lines source)[p.row - 1]?.getD ""

/-- Where the fault lies: the position, the source line and a caret under the column. -/
def excerpt (source : String) (p : Position) : String :=
  render [⟨.plain, "     "⟩, ⟨.blue, "-->"⟩, ⟨.plain, " "⟩, ⟨.underlined, p.text⟩] ++ "\n" ++
  render [⟨.plain, "      "⟩, ⟨.blue, "|"⟩] ++ "\n" ++
  render [⟨.plain, " "⟩, ⟨.blue, padLeft 4 (toString p.row) ++ " |"⟩,
    ⟨.plain, " " ++ sourceLine source p⟩] ++ "\n" ++
  render [⟨.plain, "      "⟩, ⟨.blue, "|"⟩,
    ⟨.plain, " " ++ String.ofList (List.replicate (p.column - 1) ' ')⟩,
    ⟨.alarm, "^"⟩] ++ "\n"

/-- The text shown on the terminal for a fault in the given source. -/
def report (source : String) (d : Diagnostic) : String :=
  headline d.cause.message ++ excerpt source d.pos

end Diagnostic

end WordC
