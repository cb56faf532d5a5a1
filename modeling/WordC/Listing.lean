import WordC.Machine.Instruction

/-!
# Assembly listings

A listing is the assembly of one source file: labels, instructions, reserved bytes and string data,
line by line.
-/

namespace WordC

/-- A line of a listing. -/
inductive Line
  | label (name : String)
  | instruction (i : Instruction)
  /-- So many bytes of room. -/
  | reserve (bytes : Nat)
  /-- The characters of a text. -/
  | string (content : String)
deriving DecidableEq, Repr

namespace Line
open Text

/-- The line as assembly text, without its end. -/
def render : Line → String
  | .label name => "." ++ name ++ ":"
  | .instruction i => "\t" ++ i.text
  | .reserve bytes => "\tres " ++ toString bytes
  | .string content => "\tstr \"" ++ content ++ "\""

/-- The line as coloured text, without its end. -/
def styled : Line → String
  | .label name => Text.render [⟨.green, "." ++ name ++ ":"⟩]
  | .instruction i => Text.render (⟨.plain, "    "⟩ :: i.spans)
  | .reserve bytes =>
    Text.render [⟨.plain, "    "⟩, ⟨.red, padRight 5 "res"⟩, ⟨.blue, toString bytes⟩]
  | .string content =>
    Text.render
      [⟨.plain, "    "⟩, ⟨.red, padRight 5 "str"⟩, ⟨.yellow, "\"" ++ content ++ "\""⟩]

/-- The name that a line defines. -/
def label? : Line → Option String
  | .label name => some name
  | _ => none

end Line

/-- The assembly of a source file. -/
structure Listing where
  source : String
  lines : List Line
deriving DecidableEq, Repr

namespace Listing

/-- The names that the listing defines, in order. -/
def labels (listing : Listing) : List String := listing.lines.filterMap Line.label?

/-- Lines of text, each with its end. -/
def unlines (lines : List String) : String := String.join (lines.map (· ++ "\n"))

/-- The listing as assembly text, with the name of its source on top. -/
def text (listing : Listing) : String :=
  "# " ++ listing.source ++ "\n" ++ unlines (listing.lines.map Line.render)

end Listing

end WordC
