/-!
# Numerals

The value of a numeral: hexadecimal after `0x`, binary after `0b`, and decimal otherwise. It has
to have at least one digit and to fit in a word.
-/

namespace WordC.Numeral

/-- The value of a hexadecimal digit of either case. -/
def digit? (c : Char) : Option Nat :=
  if '0' ≤ c ∧ c ≤ '9' then some (c.toNat - '0'.toNat)
  else if 'a' ≤ c ∧ c ≤ 'f' then some (c.toNat - 'a'.toNat + 10)
  else if 'A' ≤ c ∧ c ≤ 'F' then some (c.toNat - 'A'.toNat + 10)
  else none

/-- The value of a digit in a given radix. -/
def digitIn? (radix : Nat) (c : Char) : Option Nat :=
  (digit? c).filter (· < radix)

/-- The value of further digits behind a number read so far. -/
def digitsFrom? (radix : Nat) : Nat → List Char → Option Nat
  | n, [] => some n
  | n, c :: cs =>
    match digitIn? radix c with
    | some d => digitsFrom? radix (n * radix + d) cs
    | none => none

/-- The value of a nonempty run of digits. -/
def digits? (radix : Nat) : List Char → Option Nat
  | [] => none
  | cs => digitsFrom? radix 0 cs

/-- The number that a numeral writes. -/
def nat? : List Char → Option Nat
  | '0' :: 'x' :: digits => digits? 16 digits
  | '0' :: 'b' :: digits => digits? 2 digits
  | digits => digits? 10 digits

/-- A number as a word, if it fits. -/
def word? (n : Nat) : Option UInt16 := if n < 65536 then some n.toUInt16 else none

/-- The word that a numeral writes. -/
def value? (cs : List Char) : Option UInt16 := (nat? cs).bind word?

/-- May the character stand in a numeral? -/
def isNumeralChar (c : Char) : Bool := (digit? c).isSome || c = 'x'

example : value? "0x1F".toList = some 31 := by decide
example : value? "0b101".toList = some 5 := by decide
example : value? "00065535".toList = some 65535 := by decide
example : value? "65536".toList = none := by decide
example : value? "0x".toList = none := by decide
example : value? "12ab".toList = none := by decide

end WordC.Numeral
