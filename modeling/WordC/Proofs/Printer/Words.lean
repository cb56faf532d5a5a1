import WordC.Proofs.Grammar.Rules

/-!
# Printing syntax trees

A tree is printed as a list of `Spelling`s, which are tokens without positions. Every part of an
expression has a place of some level, and is put in parentheses exactly where its own level binds
weaker than its place (`enclose`). A binary operator has its own level on the left and the next one
on the right; the operands of a logical operator have the next level; an assignment has the level of
`||` on the left and its own on the right.

* `Expr.print`, `Stmt.print`: the spellings of a tree;
* `Expr.isPrintable`, `Stmt.isPrintable`: the trees that can be printed. A logical operator has two
  operands or more, types are those that can be written where they stand, the bodies of
  conditionals, loops and functions are no declarations, and what stands in front of an `else` does
  not end in an `if` without one;
* `Expr.forget`, `Stmt.forget`: the tree with all positions the same.
-/

namespace WordC

/-! ### Spellings -/

/-- What a token is, apart from its position. -/
structure Spelling where
  kind : Token.Kind
  text : String
deriving DecidableEq, Repr

/-- The token without its position. -/
def Token.spelling (t : Token) : Spelling := ⟨t.kind, t.text⟩

namespace Spelling

def mark (m : Mark) : Spelling := ⟨.mark m, m.lexeme⟩
def keyword (k : Keyword) : Spelling := ⟨.keyword k, k.lexeme⟩
def identifier (x : String) : Spelling := ⟨.identifier, x⟩
def number (value : UInt16) : Spelling := ⟨.number value, toString value.toNat⟩
def string (content : String) : Spelling := ⟨.text, content⟩
def character (code : UInt16) : Spelling :=
  ⟨.character code, String.singleton (Char.ofNat code.toNat)⟩

/-- The truth values are keywords. -/
def bool (value : Bool) : Spelling := keyword (if value then .trueWord else .falseWord)

end Spelling

theorem Token.kind_of_spelling {t : Token} {s : Spelling} (h : t.spelling = s) : t.kind = s.kind :=
  congrArg Spelling.kind h

theorem Token.text_of_spelling {t : Token} {s : Spelling} (h : t.spelling = s) : t.text = s.text :=
  congrArg Spelling.text h

/-! ### Levels -/

namespace Grammar.Level

/-- How tight a level binds. -/
def rank : Level → Nat
  | assign => 0
  | or => 1
  | and => 2
  | equality => 3
  | relation => 4
  | sum => 5
  | product => 6
  | unary => 7
  | call => 8
  | primary => 9

/-- The next level; behind the last one there is none. -/
def tighter (level : Level) : Level := level.next?.getD .primary

end Grammar.Level

open Grammar

/-- The mark of an operator with one operand. -/
def UnaryOp.mark : UnaryOp → Mark
  | .not => .bang
  | .neg => .minus
  | .deref => .star

/-- The mark of an operator with two operands. -/
def BinaryOp.mark : BinaryOp → Mark
  | .add => .plus
  | .sub => .minus
  | .mul => .star
  | .div => .slash
  | .eq => .equalEqual
  | .ne => .bangEqual
  | .lt => .less
  | .le => .lessEqual
  | .gt => .greater
  | .ge => .greaterEqual

/-- The level of an operator with two operands. -/
def BinaryOp.level : BinaryOp → Level
  | .eq | .ne => .equality
  | .lt | .le | .gt | .ge => .relation
  | .add | .sub => .sum
  | .mul | .div => .product

/-- The mark of a logical operator. -/
def LogicalOp.mark : LogicalOp → Mark
  | .or => .barBar
  | .and => .ampAmp

/-- The level of a logical operator. -/
def LogicalOp.level : LogicalOp → Level
  | .or => .or
  | .and => .and

/-- The level of an expression. -/
def Expr.level : Expr → Level
  | .assign _ _ _ => .assign
  | .logical _ op _ => op.level
  | .binary _ op _ _ => op.level
  | .unary _ _ _ => .unary
  | .call _ _ _ => .call
  | .name _ _ | .number _ _ | .text _ _ | .character _ _ | .bool _ _ => .primary

/-! ### Expressions -/

/-- What is printed at a place: it is in parentheses if its level binds weaker. -/
def enclose (place level : Level) (words : List Spelling) : List Spelling :=
  if level.rank < place.rank then .mark .openParen :: (words ++ [.mark .closeParen]) else words

namespace Expr

mutual

/-- The spellings of an expression. -/
def print : Expr → List Spelling
  | .assign _ target value =>
    enclose .or target.level target.print ++
      .mark .equal :: enclose .assign value.level value.print
  | .logical _ op operands => printChain op.mark op.level.tighter operands
  | .binary _ op left right =>
    enclose op.level left.level left.print ++
      .mark op.mark :: enclose op.level.tighter right.level right.print
  | .unary _ op operand => .mark op.mark :: enclose .unary operand.level operand.print
  | .call _ callee args =>
    enclose .call callee.level callee.print ++
      .mark .openParen :: (printChain .comma .assign args ++ [.mark .closeParen])
  | .name _ x => [.identifier x]
  | .number _ value => [.number value]
  | .text _ content => [.string content]
  | .character _ code => [.character code]
  | .bool _ value => [.bool value]

/-- Expressions at places of one level with a mark between them. -/
def printChain (m : Mark) (place : Level) : List Expr → List Spelling
  | [] => []
  | e :: es => enclose place e.level e.print ++ printBehind m place es

/-- The rest of a chain, each expression with the mark in front. -/
def printBehind (m : Mark) (place : Level) : List Expr → List Spelling
  | [] => []
  | e :: es => .mark m :: (enclose place e.level e.print ++ printBehind m place es)

end

/-- An expression that may be missing. -/
def print? (e : Option Expr) : List Spelling := (e.map print).getD []

mutual

/-- Every logical operator has two operands or more. -/
def isPrintable : Expr → Bool
  | .assign _ target value => target.isPrintable && value.isPrintable
  | .logical _ _ operands => 2 ≤ operands.length && arePrintable operands
  | .binary _ _ left right => left.isPrintable && right.isPrintable
  | .unary _ _ operand => operand.isPrintable
  | .call _ callee args => callee.isPrintable && arePrintable args
  | .name _ _ | .number _ _ | .text _ _ | .character _ _ | .bool _ _ => true

/-- All of the expressions can be printed. -/
def arePrintable : List Expr → Bool
  | [] => true
  | e :: es => e.isPrintable && arePrintable es

end

/-- An expression that may be missing can be printed. -/
def isPrintable? (e : Option Expr) : Bool := (e.map isPrintable).getD true

mutual

/-- The expression with all positions the same. -/
def forget : Expr → Expr
  | .assign _ target value => .assign default target.forget value.forget
  | .logical _ op operands => .logical default op (forgetAll operands)
  | .binary _ op left right => .binary default op left.forget right.forget
  | .unary _ op operand => .unary default op operand.forget
  | .call _ callee args => .call default callee.forget (forgetAll args)
  | .name _ x => .name default x
  | .number _ value => .number default value
  | .text _ content => .text default content
  | .character _ code => .character default code
  | .bool _ value => .bool default value

/-- The expressions with all positions the same. -/
def forgetAll : List Expr → List Expr
  | [] => []
  | e :: es => e.forget :: forgetAll es

end

theorem forgetAll_eq_map (es : List Expr) : forgetAll es = es.map forget := by
  induction es with
  | nil => rfl
  | cons e es ih => rw [forgetAll, ih, List.map_cons]

@[simp] theorem pos_forget (e : Expr) : e.forget.pos = default := by
  cases e <;> simp [forget, pos]

end Expr

/-! ### Declarations -/

/-- The spelling of the element type of an array. -/
def Elem.print : Elem → List Spelling
  | .int => [.keyword .intWord]
  | .char => [.keyword .charWord]
  | .pointer base => [.keyword base.word, .mark .star]

/-- The spelling of a type in front of a name; the count of an array stands behind the name. -/
def Ty.print : Ty → List Spelling
  | .void => [.keyword .voidWord]
  | .int => Elem.int.print
  | .char => Elem.char.print
  | .pointer base => (Elem.pointer base).print
  | .array elem _ => elem.print

/-- The count of an array in its brackets; nothing for other types. -/
def Ty.printCount : Ty → List Spelling
  | .array _ count => [.mark .openBracket, .number count.toUInt16, .mark .closeBracket]
  | .void | .int | .char | .pointer _ => []

/-- A type and a name. -/
def printNamed (ty : Ty) (name : String) : List Spelling := ty.print ++ [.identifier name]

/-- The rest of a parameter list, each parameter with a comma in front. -/
def printParamsBehind : List Param → List Spelling
  | [] => []
  | p :: ps => .mark .comma :: (printNamed p.ty p.name ++ printParamsBehind ps)

/-- Parameters with commas between them. -/
def printParams : List Param → List Spelling
  | [] => []
  | p :: ps => printNamed p.ty p.name ++ printParamsBehind ps

namespace Signature

def print (head : Signature) : List Spelling :=
  printNamed head.result head.name ++
    .mark .openParen :: (printParams head.params ++ [.mark .closeParen])

/-- Parameters are neither void nor arrays, and the result is no array. -/
def isPrintable (head : Signature) : Bool :=
  !head.result.isArray && head.params.all fun p => !p.ty.isVoid && !p.ty.isArray

end Signature

namespace Variable

/-- An initial value with its mark. -/
def printInit : Option Expr → List Spelling
  | none => []
  | some init => .mark .equal :: init.print

def print (decl : Variable) : List Spelling :=
  ((if decl.constant then [.keyword .constWord] else []) ++ printNamed decl.ty decl.name) ++
    (decl.ty.printCount ++ (printInit decl.init ++ [.mark .semicolon]))

/-- The variable is not void. An array has a count that is a number and not zero, and no initial
value. -/
def isPrintable (decl : Variable) : Bool :=
  match decl.ty with
  | .void => false
  | .array _ count => 0 < count && count < 65536 && decl.init.isNone
  | .int | .char | .pointer _ => Expr.isPrintable? decl.init

def forget (decl : Variable) : Variable := { decl with init := decl.init.map Expr.forget }

end Variable

/-! ### Statements -/

namespace Stmt

/-- Is the statement a declaration? -/
def isDeclaration : Stmt → Bool
  | .var _ _ | .prototype _ _ | .function _ _ _ => true
  | .block _ _ | .expr _ _ | .ifThen _ _ _ | .ifElse _ _ _ _ | .whileLoop _ _ _
  | .forLoop _ _ _ _ _ | .ret _ _ => false

/-- A condition in its parentheses. -/
def printCondition (cond : Expr) : List Spelling :=
  .mark .openParen :: (cond.print ++ [.mark .closeParen])

mutual

/-- The spellings of a statement. -/
def print : Stmt → List Spelling
  | .var _ decl => decl.print
  | .prototype _ head => head.print ++ [.mark .semicolon]
  | .function _ head body => head.print ++ body.print
  | .block _ items => .mark .openBrace :: (printAll items ++ [.mark .closeBrace])
  | .expr _ e => e.print ++ [.mark .semicolon]
  | .ifThen _ cond yes => .keyword .ifWord :: (printCondition cond ++ yes.print)
  | .ifElse _ cond yes no =>
    .keyword .ifWord :: (printCondition cond ++ (yes.print ++ .keyword .elseWord :: no.print))
  | .whileLoop _ cond body => .keyword .whileWord :: (printCondition cond ++ body.print)
  | .forLoop _ init cond step body =>
    .keyword .forWord :: .mark .openParen :: (Expr.print? init ++ .mark .semicolon ::
      (Expr.print? cond ++ .mark .semicolon ::
        (Expr.print? step ++ .mark .closeParen :: body.print)))
  | .ret _ value => .keyword .returnWord :: (Expr.print? value ++ [.mark .semicolon])

/-- The spellings of statements one after the other. -/
def printAll : List Stmt → List Spelling
  | [] => []
  | item :: items => item.print ++ printAll items

end

mutual

/-- The statement can be printed. -/
def isPrintable : Stmt → Bool
  | .var _ decl => decl.isPrintable
  | .prototype _ head => head.isPrintable
  | .function _ head body => head.isPrintable && (!body.isDeclaration && body.isPrintable)
  | .block _ items => arePrintable items
  | .expr _ e => e.isPrintable
  | .ifThen _ cond yes => cond.isPrintable && (!yes.isDeclaration && yes.isPrintable)
  | .ifElse _ cond yes no =>
    cond.isPrintable && (!yes.isDeclaration && yes.isPrintable) && !yes.isOpen &&
      (!no.isDeclaration && no.isPrintable)
  | .whileLoop _ cond body => cond.isPrintable && (!body.isDeclaration && body.isPrintable)
  | .forLoop _ init cond step body =>
    Expr.isPrintable? init && Expr.isPrintable? cond && Expr.isPrintable? step &&
      (!body.isDeclaration && body.isPrintable)
  | .ret _ value => Expr.isPrintable? value

/-- All of the statements can be printed. -/
def arePrintable : List Stmt → Bool
  | [] => true
  | item :: items => item.isPrintable && arePrintable items

end

mutual

/-- The statement with all positions the same. -/
def forget : Stmt → Stmt
  | .var _ decl => .var default decl.forget
  | .prototype _ head => .prototype default head
  | .function _ head body => .function default head body.forget
  | .block _ items => .block default (forgetAll items)
  | .expr _ e => .expr default e.forget
  | .ifThen _ cond yes => .ifThen default cond.forget yes.forget
  | .ifElse _ cond yes no => .ifElse default cond.forget yes.forget no.forget
  | .whileLoop _ cond body => .whileLoop default cond.forget body.forget
  | .forLoop _ init cond step body =>
    .forLoop default (init.map Expr.forget) (cond.map Expr.forget) (step.map Expr.forget)
      body.forget
  | .ret _ value => .ret default (value.map Expr.forget)

/-- The statements with all positions the same. -/
def forgetAll : List Stmt → List Stmt
  | [] => []
  | item :: items => item.forget :: forgetAll items

end

theorem forgetAll_eq_map (items : List Stmt) : forgetAll items = items.map forget := by
  induction items with
  | nil => rfl
  | cons item items ih => rw [forgetAll, ih, List.map_cons]

end Stmt

end WordC
