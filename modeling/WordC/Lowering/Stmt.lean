import WordC.Lowering.Expr
import WordC.Stmt

/-!
# Lowering statements and programs

The `Session` of a program is the scratch of its expressions, the symbol table and, inside a
function, the frame of that function. Locals get their slots in the order of their declarations,
one below the other, and keep them: a slot is not used again after its block. Room for all of them
is made at the start of the function, so the lines of the body come before the size is known and
are put behind the reservation at the end.

* `lowerStmt`, `lowerItems`: statements
* `Listing.ofProgram`: the whole file, the data behind the code
-/

namespace WordC

/-- The locals of the function at hand. -/
structure Frame where
  /-- The name of the function. -/
  function : String
  /-- The words given to locals so far. -/
  words : Nat
deriving DecidableEq, Repr

/-- The bytes given to locals so far, if an offset reaches them. -/
def Frame.bytes? (frame : Frame) : Option UInt16 :=
  if wordBytes * frame.words ≤ 32768 then some (wordBytes * frame.words).toUInt16 else none

/-- What lowering statements works on. -/
structure Session where
  scratch : Scratch
  symbols : SymbolTable
  /-- The frame of the function at hand, `none` outside of functions. -/
  frame : Option Frame
deriving DecidableEq, Repr

/-- The start of a program. -/
def Session.empty : Session := ⟨.empty, .empty, none⟩

namespace Lowering
open Emitter

/-- Work on the scratch of the session. -/
def onScratch {α : Type} (x : Emitter Scratch α) : Emitter Session α :=
  focus Session.scratch (fun scratch session => { session with scratch }) x

/-- Evaluate an expression. -/
def evaluate (e : Expr) : Emitter Session Register := do
  let session ← get
  onScratch (lowerExpr session.symbols e)

/-- Evaluate an expression for its effects. -/
def evaluateOnly (e : Expr) : Emitter Session Unit := do
  let r ← evaluate e
  onScratch (release r)

/-- Evaluate an expression for its effects, if there is one. -/
def evaluateOption : Option Expr → Emitter Session Unit
  | none => pure ()
  | some e => evaluateOnly e

/-- Change the symbol table. -/
def onSymbols (f : SymbolTable → SymbolTable) : Emitter Session Unit :=
  modify fun session => { session with symbols := f session.symbols }

/-- Declare a name. -/
def declare (pos : Position) (name : String) (symbol : Symbol) : Emitter Session Unit := do
  let session ← get
  let symbols ← ofExcept pos (session.symbols.declare name symbol)
  modify fun session => { session with symbols }

/-- The offset of the lowest of so many bytes below the frame pointer. -/
def localOffset (bytes : UInt16) : Int16 := 0 - bytes.toInt16

/-- The symbol of a variable declared here: a new slot in a function, and else a static. -/
def place (pos : Position) (ty : Ty) (constant : Bool) : Emitter Session Symbol := do
  let session ← get
  match session.frame with
  | none => pure (.static ty constant)
  | some frame =>
    let frame := { frame with words := frame.words + ty.words }
    match frame.bytes? with
    | none => fail pos (.frameTooLarge frame.function)
    | some bytes =>
      modify fun session => { session with frame := some frame }
      pure (.stack (localOffset bytes) ty constant)

/-- A variable. The initial value is evaluated before the name is declared. -/
def lowerVariable (pos : Position) (decl : Variable) : Emitter Session Unit := do
  match decl.init with
  | none =>
    let symbol ← place pos decl.ty decl.constant
    declare pos decl.name symbol
  | some init =>
    let r ← evaluate init
    let symbol ← place pos decl.ty decl.constant
    declare pos decl.name symbol
    store pos decl.name symbol r
    onScratch (release r)

/-- The offset of a parameter with so many parameters from it to the last: the saved frame pointer
and the return address lie between the frame pointer and the last one. -/
def paramOffset? (remaining : Nat) : Option Int16 :=
  if wordBytes * remaining + wordBytes < 32768 then
    some (Int16.ofNat (wordBytes * remaining + wordBytes))
  else none

/-- Declare the parameters of a function. -/
def declareParams (pos : Position) (function : String) : List Param → Emitter Session Unit
  | [] => pure ()
  | param :: params => do
    match paramOffset? (params.length + 1) with
    | none => fail pos (.frameTooLarge function)
    | some offset =>
      declare pos param.name (.stack offset param.ty false)
      declareParams pos function params

/-- The start of a function. -/
def prologue : List Instruction := [.push .sf, .mov Register.sf Register.sp]

/-- Room for the locals. -/
def reservation (bytes : UInt16) : List Instruction := [.sub .sp (.immediate bytes)]

/-- The end of a function. -/
def epilogue : List Instruction := [.mov Register.sp Register.sf, .pop .sf, .ret]

/-- The symbol of a function. -/
def functionSymbol (head : Signature) (defined : Bool) : Symbol :=
  .function head.params.length defined

/-- Declare a function, which cannot be inside another one. -/
def declareFunction (pos : Position) (head : Signature) (defined : Bool) :
    Emitter Session Unit := do
  let session ← get
  if session.frame.isSome then
    fail pos (.nestedFunction head.name)
  else
    declare pos head.name (functionSymbol head defined)

/-- Enter a function: an empty frame and a scope with its parameters. -/
def enterFunction (pos : Position) (head : Signature) : Emitter Session Unit := do
  modify fun session => { session with frame := some ⟨head.name, 0⟩ }
  onSymbols .openScope
  declareParams pos head.name head.params

/-- Leave a function: close its scopes and give the reservation for its locals. -/
def leaveFunction (pos : Position) : Emitter Session (List Instruction) := do
  let session ← get
  modify fun session =>
    { session with symbols := session.symbols.closeAll, frame := none }
  match session.frame with
  | none => pure []
  | some frame =>
    if frame.words = 0 then
      pure []
    else
      match frame.bytes? with
      | some bytes => pure (reservation bytes)
      | none => fail pos (.frameTooLarge frame.function)

/-- A function whose body is lowered by `body`. -/
def lowerFunction (pos : Position) (head : Signature) (body : Emitter Session Unit) :
    Emitter Session Unit := do
  declareFunction pos head true
  -- how much room the body needs is known only behind it
  behind
    (do
      enterFunction pos head
      body)
    (do
      let reserve ← leaveFunction pos
      emitLabel head.name
      emitCode (prologue ++ reserve))
  emitCode epilogue

/-- Run in a scope of its own inside a function; outside, blocks open no scope. -/
def inScope (x : Emitter Session Unit) : Emitter Session Unit := do
  let session ← get
  if session.frame.isSome then
    onSymbols .openScope
    x
    onSymbols .closeScope
  else
    x

/-- Go on at `ok` if the condition holds, and else at `otherwise`. -/
def branch (cond : Expr) (ok otherwise : String) : Emitter Session Unit := do
  let r ← evaluate cond
  emit (.jnz r ok)
  onScratch (release r)
  emit (.jmp otherwise)
  emitLabel ok

/-- The test in front of a loop body, if there is a condition. -/
def loopTest (done : String) : Option Expr → Emitter Session Unit
  | none => pure ()
  | some cond => do
    let ok ← onScratch newLabel
    branch cond ok done

/-- A loop: test, body, step, and again. -/
def lowerLoop (cond step : Option Expr) (body : Emitter Session Unit) :
    Emitter Session Unit := do
  let top ← onScratch newLabel
  let done ← onScratch newLabel
  emitLabel top
  loopTest done cond
  body
  evaluateOption step
  emit (.jmp top)
  emitLabel done

/-- A return, which has to be inside a function. -/
def lowerReturn (pos : Position) (value : Option Expr) : Emitter Session Unit := do
  let session ← get
  if session.frame.isNone then
    fail pos .returnOutside
  else
    match value with
    | none => emitCode epilogue
    | some e =>
      let r ← evaluate e
      emit (.mov Register.rv r)
      onScratch (release r)
      emitCode epilogue

mutual

/-- Lower a statement. -/
def lowerStmt (stmt : Stmt) : Emitter Session Unit :=
  visit stmt <| match stmt with
  | .var pos decl => lowerVariable pos decl
  | .prototype pos head => declareFunction pos head false
  | .function pos head (.block _ items) =>
    -- the outermost block shares the scope of the parameters
    lowerFunction pos head (lowerItems items)
  | .function pos head body => lowerFunction pos head (lowerStmt body)
  | .block _ items => inScope (lowerItems items)
  | .expr _ e => evaluateOnly e
  | .ifThen _ cond yes => do
    let ok ← onScratch newLabel
    let done ← onScratch newLabel
    branch cond ok done
    lowerStmt yes
    emitLabel done
  | .ifElse _ cond yes no => do
    let ok ← onScratch newLabel
    let otherwise ← onScratch newLabel
    let done ← onScratch newLabel
    branch cond ok otherwise
    lowerStmt yes
    emit (.jmp done)
    emitLabel otherwise
    lowerStmt no
    emitLabel done
  | .whileLoop _ cond body => lowerLoop (some cond) none (lowerStmt body)
  | .forLoop _ init cond step body => do
    evaluateOption init
    lowerLoop cond step (lowerStmt body)
  | .ret pos value => lowerReturn pos value

/-- Lower statements one after the other. -/
def lowerItems : List Stmt → Emitter Session Unit
  | [] => pure ()
  | item :: items => do
    lowerStmt item
    lowerItems items

end

/-- Room for the variables of the file. -/
def staticLines (symbols : SymbolTable) : List Line :=
  symbols.statics.flatMap fun (name, ty) => [.label name, .reserve ty.size]

/-- The texts of string literals from the `n`th on, each at its label. -/
def stringLines : Nat → List String → List Line
  | _, [] => []
  | n, text :: texts => .label (stringLabel n) :: .string text :: stringLines (n + 1) texts

/-- The data of a program: its variables, then its texts. -/
def dataLines (session : Session) : List Line :=
  staticLines session.symbols ++ stringLines 0 session.scratch.strings

end Lowering

/-- The listing of a program: its code, then its data. -/
def Listing.ofProgram (file : String) (program : Program) : Except Diagnostic Listing :=
  match Lowering.lowerItems program .empty with
  | .error d => .error d
  | .ok e => .ok ⟨file, e.lines ++ Lowering.dataLines e.state⟩

end WordC
