import WordC.Expr
import WordC.Lowering.Emitter
import WordC.RegisterPool
import WordC.SymbolTable

/-!
# Lowering expressions

An expression is evaluated into a register that was free before and belongs to whoever asked for
the value. What an expression can change is its `Scratch`: the register pool, the count of labels
and the texts of the string literals so far. The symbol table is only read.

* Operands are evaluated from left to right; the result of a binary operator replaces the left one.
* Logical operators jump to their end at the first operand that decides.
* A call first pushes all registers in use, and pops them after it. The arguments are pushed from
  left to right, and taken off the stack by the caller.
-/

namespace WordC

/-- What lowering an expression works on. -/
structure Scratch where
  pool : RegisterPool
  /-- How many control-flow labels were made. -/
  labels : Nat
  /-- The texts of the string literals, in order. -/
  strings : List String
deriving DecidableEq, Repr

/-- Nothing in use, no labels and no texts. -/
def Scratch.empty : Scratch := ⟨.empty, 0, []⟩

/-- The name of a control-flow label. -/
def flowLabel (n : Nat) : String := "L" ++ toString n

/-- The label of a string literal. -/
def stringLabel (n : Nat) : String := "S" ++ toString n

namespace Lowering
open Emitter

/-- Take the lowest free register. -/
def alloc (pos : Position) : Emitter Scratch Register :=
  change fun s =>
    match s.pool.alloc? with
    | some (r, pool) => .ok (r, { s with pool })
    | none => .error ⟨pos, .outOfRegisters⟩

/-- Give a register back. -/
def release (r : Register) : Emitter Scratch Unit :=
  modify fun s => { s with pool := s.pool.free r }

/-- A new control-flow label. -/
def newLabel : Emitter Scratch String :=
  change fun s => .ok (flowLabel s.labels, { s with labels := s.labels + 1 })

/-- Keep the text of a string literal and give its label. -/
def keepString (text : String) : Emitter Scratch String :=
  change fun s =>
    .ok (stringLabel s.strings.length, { s with strings := s.strings ++ [text] })

/-- The registers in use. -/
def liveRegisters : Emitter Scratch (List Register) := change fun s => .ok (s.pool.live, s)

/-- Put an operand into a new register. -/
def load (pos : Position) (source : Operand) : Emitter Scratch Register := do
  let r ← alloc pos
  emit (.mov r source)
  pure r

/-! ### Instruction sequences -/

/-- Compare two registers and put the outcome into a third. -/
def compareCode (target a b : Register) (flag : Flag) : List Instruction :=
  [.cmp a b, .flg target flag]

/-- Turn a truth value around, with the help of a second register. -/
def negateCode (r scratch : Register) : List Instruction :=
  [.mov scratch (.immediate 0), .cmp r scratch, .flg r .equal]

/-- Combine two registers into the left one. The strict comparisons are the negations of the
others, since there is no flag for them. -/
def binaryCode (left right : Register) : BinaryOp → List Instruction
  | .add => [.add left right]
  | .sub => [.sub left right]
  | .mul => [.mul left right]
  | .div => [.div left right]
  | .eq => compareCode left left right .equal
  | .le => compareCode left left right .lessEqual
  | .ge => compareCode left right left .lessEqual
  | .ne => compareCode left left right .equal ++ negateCode left right
  | .lt => compareCode left right left .lessEqual ++ negateCode left right
  | .gt => compareCode left left right .lessEqual ++ negateCode left right

/-- The address of an array in the frame. -/
def frameAddressCode (target : Register) (offset : Int16) : List Instruction :=
  [.mov target Register.sf,
   if offset < 0 then .sub target (.immediate (offsetDistance offset))
   else .add target (.immediate (offsetDistance offset))]

/-- How a name is loaded: variables give their value, arrays and functions their address. -/
def nameCode (target : Register) (name : String) : Symbol → List Instruction
  | .stack offset ty _ =>
    if ty.isArray then frameAddressCode target offset else [.mov target (Address.frame offset)]
  | .static ty _ =>
    if ty.isArray then [.mov target (.label name)] else [.mov target (Address.label name)]
  | .function _ _ => [.mov target (.label name)]

/-- Where the value of a variable is stored; arrays and functions have no such place. -/
def storeAddress? (name : String) : Symbol → Option Address
  | .stack offset ty _ => if ty.isArray then none else some (.frame offset)
  | .static ty _ => if ty.isArray then none else some (.label name)
  | .function _ _ => none

/-- Emit instructions. -/
def emitCode {σ : Type} (code : List Instruction) : Emitter σ Unit :=
  emitLines (code.map Line.instruction)

/-- What a name stands for. -/
def resolve {σ : Type} (table : SymbolTable) (pos : Position) (name : String) :
    Emitter σ Symbol :=
  match table.lookup name with
  | some symbol => pure symbol
  | none => fail pos (.undeclared name)

/-- Load a name. -/
def loadName (table : SymbolTable) (pos : Position) (name : String) :
    Emitter Scratch Register := do
  let symbol ← resolve table pos name
  let r ← alloc pos
  emitCode (nameCode r name symbol)
  pure r

/-- Store a register in a variable. -/
def store {σ : Type} (pos : Position) (name : String) (symbol : Symbol) (r : Register) :
    Emitter σ Unit :=
  match storeAddress? name symbol with
  | some address => emit (.mov address r)
  | none => fail pos .notAssignable

/-- Apply an operator to a register; the result may be in another one. -/
def applyUnary (pos : Position) (op : UnaryOp) (source : Register) :
    Emitter Scratch Register := do
  let r ← alloc pos
  match op with
  | .not =>
    emitCode (negateCode source r)
    release r
    pure source
  | .neg =>
    emitCode [.mov r (.immediate 0), .sub r source]
    release source
    pure r
  | .deref =>
    emitCode [.mov r (Address.register source)]
    release source
    pure r

/-- The bytes of so many pushed arguments, as the instruction holds them. -/
def argumentBytes (count : Nat) : UInt16 := (wordBytes * count).toUInt16

/-- Take the arguments off the stack. -/
def dropArguments (count : Nat) : List Instruction :=
  if count = 0 then [] else [.add .sp (.immediate (argumentBytes count))]

/-! ### Expressions -/

mutual

/-- Evaluate an expression into a register that was free. -/
def lowerExpr (table : SymbolTable) : Expr → Emitter Scratch Register
  | .number pos value => load pos (.immediate value)
  | .character pos code => load pos (.immediate code)
  | .bool pos value => load pos (.immediate (if value then 1 else 0))
  | .text pos text => do
    let label ← keepString text
    load pos (.label label)
  | .name pos x => loadName table pos x
  | .assign _ target value =>
    match target.place? with
    | some (.named pos x) => do
      let symbol ← resolve table pos x
      if symbol.isConstant then
        fail pos (.assignedConstant x)
      else
        let r ← lowerExpr table value
        store pos x symbol r
        pure r
    | some (.pointee pos x) => do
      let address ← loadName table pos x
      let r ← lowerExpr table value
      emit (.mov (Address.register address) r)
      release address
      pure r
    | none => fail target.pos .notAssignable
  | .logical pos op operands => do
    let done ← newLabel
    let r ← alloc pos
    match op with
    | .or =>
      emit (.mov r (.immediate 1))
      lowerOr table done operands
      emit (.mov r (.immediate 0))
    | .and =>
      emit (.mov r (.immediate 0))
      lowerAnd table done operands
      emit (.mov r (.immediate 1))
    emitLabel done
    pure r
  | .binary _ op left right => do
    let a ← lowerExpr table left
    let b ← lowerExpr table right
    emitCode (binaryCode a b op)
    release b
    pure a
  | .unary pos op operand => do
    let source ← lowerExpr table operand
    applyUnary pos op source
  | .call pos callee args => do
    let saved ← liveRegisters
    emitCode (saved.map .push)
    let target ← lowerExpr table callee
    lowerArguments table args
    emit (.call target)
    release target
    emitCode (dropArguments args.length)
    emitCode (saved.reverse.map .pop)
    load pos Register.rv

/-- The operands of a disjunction: the first that is not zero ends it. -/
def lowerOr (table : SymbolTable) (done : String) : List Expr → Emitter Scratch Unit
  | [] => pure ()
  | e :: es => do
    let r ← lowerExpr table e
    emit (.jnz r done)
    release r
    lowerOr table done es

/-- The operands of a conjunction: the first that is zero ends it. -/
def lowerAnd (table : SymbolTable) (done : String) : List Expr → Emitter Scratch Unit
  | [] => pure ()
  | e :: es => do
    let ok ← newLabel
    let r ← lowerExpr table e
    emit (.jnz r ok)
    release r
    emit (.jmp done)
    emitLabel ok
    lowerAnd table done es

/-- Evaluate the arguments of a call and push them. -/
def lowerArguments (table : SymbolTable) : List Expr → Emitter Scratch Unit
  | [] => pure ()
  | e :: es => do
    let r ← lowerExpr table e
    emit (.push r)
    release r
    lowerArguments table es

end

end Lowering

end WordC
