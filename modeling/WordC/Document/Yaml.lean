import WordC.Document.Basic
import WordC.Document.Scalar

/-!
# Documents as YAML

Records and sequences are written in blocks. The fields of a record that is itself the value of a
field are indented by two, and the items of a sequence are not; inside a sequence a block begins on
the line of its dash. A tag stands in front of its value; a tagged value with a tag right inside it
cannot be written.
-/

namespace WordC

/-- How a value is laid out. -/
inductive Layout
  /-- On the line it begins on. -/
  | inline (text : String)
  /-- The fields of a record, on lines of their own. -/
  | fields (tag : Option String) (lines : List String)
  /-- The items of a sequence, on lines of their own. -/
  | items (tag : Option String) (lines : List String)

namespace Layout

/-- Two columns further to the right. -/
def indent (lines : List String) : List String := lines.map ("  " ++ ·)

/-- The name of a tag, behind a blank. -/
def tagSuffix : Option String → String
  | none => ""
  | some name => " !" ++ name

/-- Put a tag in front of a value. -/
def tagged (name : String) : Layout → Layout
  | .inline text => .inline ("!" ++ name ++ " " ++ text)
  | .fields _ lines => .fields (some name) lines
  | .items _ lines => .items (some name) lines

/-- The lines of a value by itself. -/
def document : Layout → List String
  | .inline text => [text]
  | .fields none lines | .items none lines => lines
  | .fields (some name) lines | .items (some name) lines => ("!" ++ name) :: lines

/-- The lines of an item of a sequence. -/
def item : Layout → List String
  | .inline text => ["- " ++ text]
  | .fields none [] | .items none [] => ["-"]
  | .fields none (line :: lines) | .items none (line :: lines) => ("- " ++ line) :: indent lines
  | .fields (some name) lines | .items (some name) lines => ("- !" ++ name) :: indent lines

/-- The lines of a field of a record. -/
def field (key : String) : Layout → List String
  | .inline text => [key ++ ": " ++ text]
  | .fields tag lines => (key ++ ":" ++ tagSuffix tag) :: indent lines
  | .items tag lines => (key ++ ":" ++ tagSuffix tag) :: lines

end Layout

namespace Document

mutual

/-- The layout of a document, unless it has a tag right inside a tag. -/
def layout? : Document → Option Layout
  | .null => some (.inline "null")
  | .bool value => some (.inline (if value then "true" else "false"))
  | .number value => some (.inline (toString value))
  | .integer value => some (.inline (toString value))
  | .text value => some (.inline (Scalar.write value))
  | .seq [] => some (.inline "[]")
  | .seq (d :: ds) => (itemLines? (d :: ds)).map (.items none)
  | .record [] => some (.inline "\x7b\x7d")
  | .record (f :: fs) => (fieldLines? (f :: fs)).map (.fields none)
  | .tagged _ (.tagged _ _) => none
  | .tagged name value => (layout? value).map (.tagged name)

/-- The lines of the items of a sequence. -/
def itemLines? : List Document → Option (List String)
  | [] => some []
  | d :: ds =>
    match layout? d, itemLines? ds with
    | some layout, some lines => some (layout.item ++ lines)
    | _, _ => none

/-- The lines of the fields of a record. -/
def fieldLines? : List (String × Document) → Option (List String)
  | [] => some []
  | (key, d) :: fs =>
    match layout? d, fieldLines? fs with
    | some layout, some lines => some (layout.field key ++ lines)
    | _, _ => none

end

/-- The document as YAML, or nothing if it has a tag right inside a tag. -/
def yaml? (d : Document) : Option String :=
  (layout? d).map fun layout => String.join (layout.document.map (· ++ "\n"))

end Document

end WordC
