/-!
# Documents

A document is a value that describes itself, as tokens, trees and listings are written out:
scalars, sequences, records with named fields, and values tagged with the name of a variant. A
variant without a value is the text of its name.
-/

namespace WordC

/-- A value that describes itself. -/
inductive Document
  | null
  | bool (value : Bool)
  | number (value : Nat)
  | integer (value : Int)
  | text (value : String)
  | seq (items : List Document)
  | record (fields : List (String × Document))
  | tagged (name : String) (value : Document)
deriving Repr, Inhabited

/-- A value that may be missing. -/
def Document.ofOption : Option Document → Document
  | none => .null
  | some d => d

end WordC
