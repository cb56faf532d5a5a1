/-!
# Types

Words, bytes, pointers of one level, and arrays of one dimension. A pointer does not point to a
pointer, and the elements of an array are neither void nor arrays; both are so by the shape of the
types.
-/

namespace WordC

/-- The bytes in a word of the machine. -/
def wordBytes : Nat := 2

/-- What a pointer points to. -/
inductive Base
  | void | int | char
deriving DecidableEq, Repr

/-- What an array consists of. -/
inductive Elem
  | int | char
  | pointer (base : Base)
deriving DecidableEq, Repr

/-- The types of variables and functions. -/
inductive Ty
  | void | int | char
  | pointer (base : Base)
  | array (elem : Elem) (count : Nat)
deriving DecidableEq, Repr

/-- The spelling of a base type. -/
def Base.text : Base → String
  | .void => "void"
  | .int => "int"
  | .char => "char"

namespace Elem

/-- The spelling of an element type. -/
def text : Elem → String
  | .int => "int"
  | .char => "char"
  | .pointer base => base.text ++ "*"

/-- The bytes of one element. -/
def size : Elem → Nat
  | .char => 1
  | .int | .pointer _ => wordBytes

end Elem

namespace Ty

/-- The spelling of a type. -/
def text : Ty → String
  | .void => "void"
  | .int => "int"
  | .char => "char"
  | .pointer base => base.text ++ "*"
  | .array elem count => elem.text ++ "[" ++ toString count ++ "]"

/-- The bytes a value of the type takes. -/
def size : Ty → Nat
  | .void => 0
  | .char => 1
  | .int | .pointer _ => wordBytes
  | .array elem count => elem.size * count

/-- The words a value takes in a frame: enough for its bytes, and at least one. -/
def words (ty : Ty) : Nat := max ((ty.size + (wordBytes - 1)) / wordBytes) 1

/-- Is it the type without values? -/
def isVoid : Ty → Bool
  | .void => true
  | _ => false

/-- Is it an array type? -/
def isArray : Ty → Bool
  | .array _ _ => true
  | _ => false

/-- The type of pointers to a type; there is only one level of them. -/
def pointer? : Ty → Option Ty
  | .void => some (.pointer .void)
  | .int => some (.pointer .int)
  | .char => some (.pointer .char)
  | .pointer _ | .array _ _ => none

/-- The type of arrays of a type; there are none of void or of arrays. -/
def array? (count : Nat) : Ty → Option Ty
  | .int => some (.array .int count)
  | .char => some (.array .char count)
  | .pointer base => some (.array (.pointer base) count)
  | .void | .array _ _ => none

theorem one_le_words (ty : Ty) : 1 ≤ ty.words := Nat.le_max_right _ _

end Ty

end WordC
