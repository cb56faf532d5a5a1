/-!
# File paths

A path is a text of names with slashes between them. Here are its names, the limits on their length,
and the path with another extension.
-/

namespace WordC.Path

/-- The names of a path in order. Two slashes in a row, and a slash at the end, leave an empty
name. -/
def split : List Char → List (List Char)
  | [] => [[]]
  | c :: cs =>
    if c = '/' then [] :: split cs
    else
      match split cs with
      | [] => [[c]]
      | name :: names => (c :: name) :: names

/-- The names of a path as texts. -/
def names (path : String) : List String := (split path.toList).map String.ofList

/-- The bytes that a name can have. -/
def nameLimit : Nat := 255

/-- The bytes that a path can have. -/
def pathLimit : Nat := 4095

/-- Has the text more bytes than it can have? -/
def exceeds (limit : Nat) (text : String) : Bool := limit < text.utf8ByteSize

/-- What follows the last slash. -/
def lastName (cs : List Char) : List Char := (cs.reverse.takeWhile (· ≠ '/')).reverse

/-- A file name without what follows its last dot and without that dot. A dot in front does not
count. -/
def stem (name : List Char) : List Char :=
  match (name.reverse.dropWhile (· ≠ '.')).tail.reverse with
  | [] => name
  | before => before

/-- The path with another extension behind the stem of its last name. -/
def withExtension (extension path : String) : String :=
  let cs := path.toList
  let name := lastName cs
  if name = [] ∨ name = ['.'] ∨ name = ['.', '.'] then path
  else String.ofList (cs.take (cs.length - name.length) ++ stem name) ++ "." ++ extension

end WordC.Path
