/-!
# Source positions

A position names a file, a row and a column, both counted from one. Rows begin after a line feed,
and a column is one character wide whatever the character is.
-/

namespace WordC

/-- A place in a source file. -/
structure Position where
  file : String
  row : Nat
  column : Nat
deriving DecidableEq, Repr, Inhabited

namespace Position

/-- The first character of a file. -/
def start (file : String) : Position := ⟨file, 1, 1⟩

/-- The place behind one character. -/
def advance (p : Position) (c : Char) : Position :=
  if c = '\n' then { p with row := p.row + 1, column := 1 } else { p with column := p.column + 1 }

/-- The place behind a run of characters. -/
def after (p : Position) (cs : List Char) : Position := cs.foldl advance p

@[simp] theorem after_nil (p : Position) : p.after [] = p := rfl

@[simp] theorem after_cons (p : Position) (c : Char) (cs : List Char) :
    p.after (c :: cs) = (p.advance c).after cs := rfl

@[simp] theorem after_append (p : Position) (cs ds : List Char) :
    p.after (cs ++ ds) = (p.after cs).after ds := by simp [after, List.foldl_append]

/-- The position as it is written in messages. -/
def text (p : Position) : String := p.file ++ ":" ++ toString p.row ++ ":" ++ toString p.column

end Position

end WordC
