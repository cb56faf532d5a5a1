import WordC.Machine.Register
import WordC.Text.Style

/-!
# Instructions

The instructions of the machine and their assembly text. Words are `UInt16`, and offsets from the
frame pointer are `Int16`.

* `Instruction.text`: the mnemonic, then the operands with commas between them
* `Instruction.styled`: the same in columns and colours
-/

namespace WordC

/-- What `flg` extracts from the last comparison. -/
inductive Flag
  | equal | lessEqual
deriving DecidableEq, Repr

/-- The name of a flag in assembly text. -/
def Flag.name : Flag → String
  | .equal => "FLAGS_EQUAL"
  | .lessEqual => "FLAGS_LESSEQ"

/-- A place in memory. -/
inductive Address
  /-- At an offset from the frame pointer. -/
  | frame (offset : Int16)
  /-- Where a register points to. -/
  | register (r : Register)
  /-- At a label. -/
  | label (name : String)
deriving DecidableEq, Repr

/-- What an instruction works on. -/
inductive Operand
  | register (r : Register)
  | immediate (value : UInt16)
  /-- The address of a label. -/
  | label (name : String)
  /-- What stands in memory. -/
  | memory (address : Address)
deriving DecidableEq, Repr

/-- An instruction of the machine. -/
inductive Instruction
  | push (source : Register)
  | pop (target : Register)
  | mov (target source : Operand)
  | add (target : Register) (source : Operand)
  | sub (target : Register) (source : Operand)
  | mul (target source : Register)
  | div (target source : Register)
  | cmp (left right : Register)
  | flg (target : Register) (flag : Flag)
  | call (target : Register)
  | jmp (label : String)
  | jnz (source : Register) (label : String)
  | ret
deriving DecidableEq, Repr

instance : Coe Register Operand := ⟨.register⟩

instance : Coe Address Operand := ⟨.memory⟩

/-- The distance of an offset from zero. -/
def offsetDistance (offset : Int16) : UInt16 := offset.toInt.natAbs.toUInt16

/-- The text of an address: `sf +4`, `sf - 2`, `[r1]`, `[x]`. -/
def Address.text : Address → String
  | .frame offset =>
    if offset < 0 then Register.sf.name ++ " - " ++ toString (offsetDistance offset).toNat
    else Register.sf.name ++ " +" ++ toString (offsetDistance offset).toNat
  | .register r => "[" ++ r.name ++ "]"
  | .label name => "[" ++ name ++ "]"

/-- The text of an operand. -/
def Operand.text : Operand → String
  | .register r => r.name
  | .immediate value => toString value.toNat
  | .label name => name
  | .memory address => address.text

namespace Instruction

/-- The name of an instruction. -/
def mnemonic : Instruction → String
  | .push _ => "push"
  | .pop _ => "pop"
  | .mov _ _ => "mov"
  | .add _ _ => "add"
  | .sub _ _ => "sub"
  | .mul _ _ => "mul"
  | .div _ _ => "div"
  | .cmp _ _ => "cmp"
  | .flg _ _ => "flg"
  | .call _ => "call"
  | .jmp _ => "jmp"
  | .jnz _ _ => "jnz"
  | .ret => "ret"

/-- The texts of the operands. -/
def operands : Instruction → List String
  | .push r | .pop r | .call r => [r.name]
  | .mov target source => [target.text, source.text]
  | .add target source | .sub target source => [target.name, source.text]
  | .mul a b | .div a b | .cmp a b => [a.name, b.name]
  | .flg target flag => [target.name, flag.name]
  | .jmp label => [label]
  | .jnz source label => [source.name, label]
  | .ret => []

/-- The operands with commas between them. -/
def operandText (i : Instruction) : String := ", ".intercalate i.operands

/-- The instruction as assembly text. -/
def text (i : Instruction) : String :=
  match i.operands with
  | [] => i.mnemonic
  | _ => i.mnemonic ++ " " ++ i.operandText

/-- The instruction in colours, the operands in a column of their own. -/
def spans (i : Instruction) : List Text.Span :=
  [⟨.red, Text.padRight 5 i.mnemonic⟩, ⟨.blue, i.operandText⟩]

/-- The instruction as coloured text. -/
def styled (i : Instruction) : String := Text.render i.spans

end Instruction

end WordC
