import WordC.Position

/-!
# Expressions

The trees of expressions. Every node has a position: that of its first operand where it has one in
front, else that of its operator or of the word itself.
-/

namespace WordC

/-- The operators that stop at the first deciding operand. -/
inductive LogicalOp
  | and | or
deriving DecidableEq, Repr

/-- The operators with one operand. -/
inductive UnaryOp
  | not | neg | deref
deriving DecidableEq, Repr

/-- The operators with two operands. -/
inductive BinaryOp
  | add | sub | mul | div | eq | ne | lt | le | gt | ge
deriving DecidableEq, Repr

/-- An expression. -/
inductive Expr
  | assign (pos : Position) (target value : Expr)
  /-- A chain of operands joined by the same logical operator. -/
  | logical (pos : Position) (op : LogicalOp) (operands : List Expr)
  | binary (pos : Position) (op : BinaryOp) (left right : Expr)
  | unary (pos : Position) (op : UnaryOp) (operand : Expr)
  | call (pos : Position) (callee : Expr) (args : List Expr)
  | name (pos : Position) (name : String)
  | number (pos : Position) (value : UInt16)
  | text (pos : Position) (text : String)
  | character (pos : Position) (code : UInt16)
  | bool (pos : Position) (value : Bool)
deriving Repr, Inhabited

/-- Where an expression is reported. -/
def Expr.pos : Expr → Position
  | .assign pos _ _ | .logical pos _ _ | .binary pos _ _ _ | .unary pos _ _ | .call pos _ _
  | .name pos _ | .number pos _ | .text pos _ | .character pos _ | .bool pos _ => pos

/-- What can stand on the left of an assignment. -/
inductive Place
  /-- A variable. -/
  | named (pos : Position) (name : String)
  /-- What a variable points to. -/
  | pointee (pos : Position) (name : String)
deriving DecidableEq, Repr

/-- The place that an expression denotes: a name, or the target of a named pointer. -/
def Expr.place? : Expr → Option Place
  | .name pos x => some (.named pos x)
  | .unary _ .deref (.name pos x) => some (.pointee pos x)
  | _ => none

end WordC
