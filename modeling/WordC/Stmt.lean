import WordC.Expr
import WordC.Ty

/-!
# Statements and programs

A program is a list of statements; declarations count as statements. A function is declared by a
prototype, or defined with a body, which is any one statement.
-/

namespace WordC

/-- A parameter of a function. -/
structure Param where
  name : String
  ty : Ty
deriving DecidableEq, Repr

/-- The head of a function. -/
structure Signature where
  name : String
  result : Ty
  params : List Param
deriving DecidableEq, Repr

/-- The declaration of a variable. -/
structure Variable where
  name : String
  ty : Ty
  constant : Bool
  init : Option Expr
deriving Repr

/-- A statement or declaration. -/
inductive Stmt
  | var (pos : Position) (decl : Variable)
  | prototype (pos : Position) (head : Signature)
  | function (pos : Position) (head : Signature) (body : Stmt)
  | block (pos : Position) (items : List Stmt)
  | expr (pos : Position) (value : Expr)
  | ifThen (pos : Position) (cond : Expr) (yes : Stmt)
  | ifElse (pos : Position) (cond : Expr) (yes no : Stmt)
  | whileLoop (pos : Position) (cond : Expr) (body : Stmt)
  | forLoop (pos : Position) (init cond step : Option Expr) (body : Stmt)
  | ret (pos : Position) (value : Option Expr)
deriving Repr, Inhabited

/-- A whole source file. -/
abbrev Program := List Stmt

end WordC
