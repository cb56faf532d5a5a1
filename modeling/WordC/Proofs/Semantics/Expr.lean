import WordC.Lowering.Expr
import WordC.Proofs.Machine.Run
import WordC.Proofs.Syntax

/-!
# The meaning of expressions

The value of an expression without calls, and the memory that its evaluation leaves. The memory,
multiplication, division, the order of words and the addresses of labels are those of a `World`.

* A name stands for what the symbol table says: a variable that holds a word is read from its slot
  in the frame or at its label, an array or a function is its address.
* A string literal is the address of its label. Literals are numbered in their order; an evaluation
  begins with the number of the first literal of the expression.
* Operands are evaluated from left to right, the pointer of an assignment before its value, and a
  logical operator stops at the first operand that decides.

An expression with a call, an undeclared name or an impossible assignment has no value.
-/

namespace WordC

variable {μ : Type}

namespace Symbol

/-- A variable that holds one word, which is neither an array nor a function. -/
def isScalar : Symbol → Bool
  | .stack _ ty _ | .static ty _ => !ty.isArray
  | .function _ _ => false

/-- Where a symbol with the given name lies. -/
def location (world : World μ) (frame : Word) (name : String) : Symbol → Word
  | .stack offset _ _ => frame + offset.toUInt16
  | .static _ _ | .function _ _ => world.address name

/-- The value of a symbol with the given name. -/
def value (world : World μ) (frame : Word) (name : String) (m : μ) (symbol : Symbol) : Word :=
  if symbol.isScalar then world.read m (symbol.location world frame name)
  else symbol.location world frame name

end Symbol

/-- The value of a binary operator. There is only one order of words, and the other comparisons by
size are what it leaves. -/
def BinaryOp.apply (world : World μ) (a b : Word) : BinaryOp → Word
  | .add => a + b
  | .sub => a - b
  | .mul => world.mul a b
  | .div => world.div a b
  | .eq => Word.ofBool (a = b)
  | .ne => Word.ofBool (a ≠ b)
  | .le => Word.ofBool (world.lessEqual a b)
  | .ge => Word.ofBool (world.lessEqual b a)
  | .lt => Word.ofBool (!world.lessEqual b a)
  | .gt => Word.ofBool (!world.lessEqual a b)

/-- The value of a unary operator. -/
def UnaryOp.apply (world : World μ) (m : μ) (a : Word) : UnaryOp → Word
  | .not => Word.ofBool (a = 0)
  | .neg => 0 - a
  | .deref => world.read m a

/-- Is the chain of a logical operator decided by an operand with this value? -/
def LogicalOp.decides : LogicalOp → Word → Bool
  | .or, v => v ≠ 0
  | .and, v => v = 0

namespace Expr

variable (world : World μ) (frame : Word) (table : SymbolTable)

mutual

/-- The value of an expression whose first string literal has number `n`, and the memory after its
evaluation. -/
def eval (n : Nat) : Expr → μ → Option (Word × μ)
  | .number _ v, m | .character _ v, m => some (v, m)
  | .bool _ b, m => some (Word.ofBool b, m)
  | .text _ _, m => some (world.address (stringLabel n), m)
  | .name _ x, m => do
    let symbol ← table.lookup x
    some (symbol.value world frame x m, m)
  | .assign _ target e, m =>
    match target.place? with
    | some (.named _ x) => do
      let symbol ← table.lookup x
      let (v, m) ← eval n e m
      if symbol.isScalar then some (v, world.write m (symbol.location world frame x) v) else none
    | some (.pointee _ x) => do
      let symbol ← table.lookup x
      let address := symbol.value world frame x m
      let (v, m) ← eval n e m
      some (v, world.write m address v)
    | none => none
  | .logical _ op operands, m => do
    let (decided, m) ← evalOperands n op operands m
    some (op.outcome decided, m)
  | .binary _ op left right, m => do
    let (a, m) ← eval n left m
    let (b, m) ← eval (n + left.literals.length) right m
    some (op.apply world a b, m)
  | .unary _ op operand, m => do
    let (a, m) ← eval n operand m
    some (op.apply world m a, m)
  | .call _ _ _, _ => none

/-- Whether an operand of a logical operator decides, and the memory after the operands up to it. -/
def evalOperands (n : Nat) (op : LogicalOp) : List Expr → μ → Option (Bool × μ)
  | [], m => some (false, m)
  | e :: es, m => do
    let (v, m) ← eval n e m
    if op.decides v then some (true, m) else evalOperands (n + e.literals.length) op es m

end

end Expr

end WordC
