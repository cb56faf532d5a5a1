/-!
# Registers

Sixteen general registers, which are interchangeable, and three special ones: the frame pointer
`sf`, the stack pointer `sp` and the return value `rv`.
-/

namespace WordC

/-- How many general registers there are. -/
abbrev generalCount : Nat := 16

instance : @NeZero Nat Zero.ofOfNat0 generalCount := ⟨by decide⟩

/-- A register of the machine. -/
inductive Register
  | general (index : Fin generalCount)
  | sf | sp | rv
deriving DecidableEq, Repr

namespace Register

/-- The general register with a given number. -/
def general? (index : Nat) : Option Register :=
  if h : index < generalCount then some (.general ⟨index, h⟩) else none

/-- The number of a register: the general ones first, then the special ones. -/
def number : Register → Nat
  | .general i => i
  | .sf => 16
  | .sp => 17
  | .rv => 18

/-- The register with a given number. -/
def ofNumber? (number : Nat) : Option Register :=
  if h : number < generalCount then some (.general ⟨number, h⟩)
  else if number = 16 then some .sf
  else if number = 17 then some .sp
  else if number = 18 then some .rv
  else none

/-- Is the register one of the interchangeable ones? -/
def isGeneral : Register → Bool
  | .general _ => true
  | _ => false

/-- The name of a register in assembly text. -/
def name : Register → String
  | .general i => "r" ++ toString i.val
  | .sf => "sf"
  | .sp => "sp"
  | .rv => "rv"

theorem ofNumber?_number (r : Register) : ofNumber? r.number = some r := by
  cases r <;> simp [number, ofNumber?, generalCount]

end Register

end WordC
