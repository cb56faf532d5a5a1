/-!
# Lines of a text

A line ends at a line feed, and a carriage return right before that line feed is not part of it.
What follows the last line feed is a line only if it is not empty, and keeps its carriage return.
-/

namespace WordC.Text

/-- The lines of a list of characters, without their ends. -/
def charLines : List Char → List (List Char)
  | [] => []
  | '\r' :: '\n' :: rest => [] :: charLines rest
  | '\n' :: rest => [] :: charLines rest
  | c :: rest =>
    match charLines rest with
    | [] => [[c]]
    | line :: lines => (c :: line) :: lines

/-- The lines of a text, without their ends. -/
def lines (text : String) : List String :=
  (charLines text.toList).map String.ofList

theorem charLines_newline (rest : List Char) : charLines ('\n' :: rest) = [] :: charLines rest := by
  simp [charLines]

end WordC.Text
