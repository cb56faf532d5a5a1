import WordC.Expr
import WordC.Parser.Basic

/-!
# Reading expressions

One parser per level of binding, from assignment, which binds weakest, down to single words:

* `assignment`: `or {"=" or}`, grouping to the right
* `disjunction`, `conjunction`: a chain of operands is one node
* `equality`, `relation`, `sum`, `product`: grouping to the left
* `unary`: any number of `!`, `-`, `*` in front
* `call`: any number of argument lists behind
* `primary`: a name, a literal, or an expression in parentheses

A level takes the parser for the expressions inside parentheses as an argument. `expr` ties the
knot: what stands inside parentheses has fewer tokens than the whole, so parentheses nest no deeper
than there are tokens.
-/

namespace WordC.Parser

/-- The expression that a token is by itself: a name or a literal. -/
def atom? (t : Token) : Option Expr :=
  match t.kind with
  | .identifier => some (.name t.pos t.text)
  | .number value => some (.number t.pos value)
  | .text => some (.text t.pos t.text)
  | .character code => some (.character t.pos code)
  | .keyword .trueWord => some (.bool t.pos true)
  | .keyword .falseWord => some (.bool t.pos false)
  | _ => none

/-- The operator of a prefix token, with its position. -/
def prefixOp? (t : Token) : Option (UnaryOp × Position) :=
  match t.kind with
  | .mark .bang => some (.not, t.pos)
  | .mark .minus => some (.neg, t.pos)
  | .mark .star => some (.deref, t.pos)
  | _ => none

/-- The operator of a multiplicative token. -/
def productOp? (t : Token) : Option BinaryOp :=
  match t.kind with
  | .mark .star => some .mul
  | .mark .slash => some .div
  | _ => none

/-- The operator of an additive token. -/
def sumOp? (t : Token) : Option BinaryOp :=
  match t.kind with
  | .mark .plus => some .add
  | .mark .minus => some .sub
  | _ => none

/-- The operator of a token that compares by size. -/
def relationOp? (t : Token) : Option BinaryOp :=
  match t.kind with
  | .mark .less => some .lt
  | .mark .lessEqual => some .le
  | .mark .greater => some .gt
  | .mark .greaterEqual => some .ge
  | _ => none

/-- The operator of a token that compares for equality. -/
def equalityOp? (t : Token) : Option BinaryOp :=
  match t.kind with
  | .mark .equalEqual => some .eq
  | .mark .bangEqual => some .ne
  | _ => none

/-! ### Nodes -/

/-- Apply an expression to one argument list after the other. -/
def applyCalls (callee : Expr) (calls : List (List Expr)) : Expr :=
  calls.foldl (fun e args => .call e.pos e args) callee

/-- Put prefix operators in front of an operand, the last one innermost. -/
def applyPrefixes (ops : List (UnaryOp × Position)) (operand : Expr) : Expr :=
  ops.foldr (fun op e => .unary op.2 op.1 e) operand

/-- Join a chain of operands from the left. -/
def joinLeft (first : Expr) (others : List (BinaryOp × Expr)) : Expr :=
  others.foldl (fun e operand => .binary e.pos operand.1 e operand.2) first

/-- One node for a chain of operands, and none for a single operand. -/
def joinLogical (op : LogicalOp) (first : Expr) : List Expr → Expr
  | [] => first
  | others => .logical first.pos op (first :: others)

/-- Join a chain of assignments from the right. -/
def joinAssign : Expr → List Expr → Expr
  | e, [] => e
  | e, value :: values => .assign e.pos e (joinAssign value values)

/-! ### Levels -/

section Levels

variable (inner : Parser Expr)

/-- A name, a literal, or an expression in parentheses. -/
def primaryLevel : Parser Expr := do
  let t ← token "expression"
  match atom? t with
  | some e => pure e
  | none =>
    if isMark .openParen t then
      let e ← inner
      let _ ← mark .closeParen
      pure e
    else
      refuse t "expression"

/-- The arguments of a call, behind the opening parenthesis. -/
def arguments : Parser (List Expr) := do
  let args ← commaList inner
  let _ ← mark .closeParen
  pure args

/-- A primary expression and the calls of it. -/
def callLevel : Parser Expr := do
  let callee ← primaryLevel inner
  let calls ← many (onMark .openParen) fun _ => arguments inner
  pure (applyCalls callee calls)

/-- Prefix operators and what they apply to. -/
def unaryLevel : Parser Expr := do
  let ops ← many prefixOp? pure
  let operand ← callLevel inner
  pure (applyPrefixes ops operand)

end Levels

/-- A chain of operands with operators that group to the left. -/
def leftChain (op? : Token → Option BinaryOp) (operand : Parser Expr) : Parser Expr := do
  let first ← operand
  let others ← many op? fun op => do
    let e ← operand
    pure (op, e)
  pure (joinLeft first others)

/-- A chain of operands of a logical operator. -/
def logicalChain (m : Mark) (op : LogicalOp) (operand : Parser Expr) : Parser Expr := do
  let first ← operand
  let others ← many (onMark m) fun _ => operand
  pure (joinLogical op first others)

/-- A chain of assignments. -/
def assignChain (operand : Parser Expr) : Parser Expr := do
  let first ← operand
  let others ← many (onMark .equal) fun _ => operand
  pure (joinAssign first others)

section Levels

variable (inner : Parser Expr)

/-- Operands joined by `*` and `/`. -/
def productLevel : Parser Expr := leftChain productOp? (unaryLevel inner)

/-- Operands joined by `+` and `-`. -/
def sumLevel : Parser Expr := leftChain sumOp? (productLevel inner)

/-- Operands joined by `<`, `<=`, `>` and `>=`. -/
def relationLevel : Parser Expr := leftChain relationOp? (sumLevel inner)

/-- Operands joined by `==` and `!=`. -/
def equalityLevel : Parser Expr := leftChain equalityOp? (relationLevel inner)

/-- Operands joined by `&&`. -/
def andLevel : Parser Expr := logicalChain .ampAmp .and (equalityLevel inner)

/-- Operands joined by `||`. -/
def orLevel : Parser Expr := logicalChain .barBar .or (andLevel inner)

/-- Operands joined by `=`. -/
def assignLevel : Parser Expr := assignChain (orLevel inner)

end Levels

/-- Expressions whose parentheses nest less deep than the list in front is long. -/
def exprWithin : List Token → Parser Expr
  | [] => fun ts => .error (.endOfInput "expression") ts
  | _ :: bound => assignLevel (exprWithin bound)

/-- An expression. -/
def expr : Parser Expr := fun ts => exprWithin ts ts

/-! ### The levels of an expression

The levels with any expression inside their parentheses. -/

def primary : Parser Expr := primaryLevel expr
def call : Parser Expr := callLevel expr
def unary : Parser Expr := unaryLevel expr
def product : Parser Expr := productLevel expr
def sum : Parser Expr := sumLevel expr
def relation : Parser Expr := relationLevel expr
def equality : Parser Expr := equalityLevel expr
def conjunction : Parser Expr := andLevel expr
def disjunction : Parser Expr := orLevel expr
def assignment : Parser Expr := assignLevel expr

end WordC.Parser
