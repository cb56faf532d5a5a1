import WordC.Stmt
import WordC.Token.Basic

/-!
# The grammar

Which token lists are phrases of the language, and the trees they stand for. The rules say nothing
about how a phrase is found.

* `IsExpr level ts e`: expressions, with one `Level` for each strength of binding. An operator that
  groups to the left has a phrase of its own level on the left and one of the next level on the
  right, and for an assignment it is the other way around. The operands of a logical operator are
  all of the next level, so a chain of them is one node. Parentheses leave no node.
* `IsType`, `IsParams`, `IsVariable`: the parts of declarations.
* `IsStmt ts stmt`, `IsItem ts stmt`, `IsItems ts stmts`: statements, declarations or statements,
  and sequences of these, such as programs. An `else` belongs to the nearest `if`: what stands
  between an `if` and its `else` does not end in an `if` without one (`Stmt.isOpen`).

A statement or declaration has the position of its first token, and an expression that of its first
token which is no opening parenthesis.
-/

namespace WordC

/-- Does the statement end in an `if` without `else`? -/
def Stmt.isOpen : Stmt → Bool
  | .ifThen _ _ _ => true
  | .ifElse _ _ _ no => no.isOpen
  | .whileLoop _ _ body | .forLoop _ _ _ _ body => body.isOpen
  | .block _ _ | .expr _ _ | .ret _ _ | .var _ _ | .prototype _ _ | .function _ _ _ => false

namespace Grammar

/-! ### Expressions -/

/-- The levels of expressions, those that bind weaker first. -/
inductive Level
  | assign | or | and | equality | relation | sum | product | unary | call | primary
deriving DecidableEq, Repr

namespace Level

/-- The next level, which binds tighter. -/
def next? : Level → Option Level
  | assign => some or
  | or => some and
  | and => some equality
  | equality => some relation
  | relation => some sum
  | sum => some product
  | product => some unary
  | unary => some call
  | call => some primary
  | primary => none

/-- The marks between two operands, and their operators, where the level groups to the left. -/
def operators : Level → List (Mark × BinaryOp)
  | equality => [(.equalEqual, .eq), (.bangEqual, .ne)]
  | relation => [(.less, .lt), (.lessEqual, .le), (.greater, .gt), (.greaterEqual, .ge)]
  | sum => [(.plus, .add), (.minus, .sub)]
  | product => [(.star, .mul), (.slash, .div)]
  | assign | or | and | unary | call | primary => []

/-- The mark between the operands of a logical operator. -/
def connective? : Level → Option (Mark × LogicalOp)
  | or => some (.barBar, .or)
  | and => some (.ampAmp, .and)
  | assign | equality | relation | sum | product | unary | call | primary => none

end Level

/-- The marks in front of an operand, and their operators. -/
def prefixes : List (Mark × UnaryOp) := [(.bang, .not), (.minus, .neg), (.star, .deref)]

/-- The position of the first token. -/
def first (ts : List Token) : Position := (ts.head?.map Token.pos).getD default

/-- The position of the first token that is no opening parenthesis. -/
def lead (ts : List Token) : Position :=
  first (ts.dropWhile fun t => t.kind = .mark .openParen)

/-- A single token that is an expression. -/
inductive IsAtom : Token → Expr → Prop
  | name {t : Token} (ht : t.kind = .identifier) : IsAtom t (.name t.pos t.text)
  | number {t : Token} {v : UInt16} (ht : t.kind = .number v) : IsAtom t (.number t.pos v)
  | text {t : Token} (ht : t.kind = .text) : IsAtom t (.text t.pos t.text)
  | character {t : Token} {v : UInt16} (ht : t.kind = .character v) :
    IsAtom t (.character t.pos v)
  | yes {t : Token} (ht : t.kind = .keyword .trueWord) : IsAtom t (.bool t.pos true)
  | no {t : Token} (ht : t.kind = .keyword .falseWord) : IsAtom t (.bool t.pos false)

mutual

/-- The tokens are a phrase of the level, and stand for the expression. -/
inductive IsExpr : Level → List Token → Expr → Prop
  | tighter {level level' : Level} {ts : List Token} {e : Expr}
    (hnext : level.next? = some level') (h : IsExpr level' ts e) : IsExpr level ts e
  | assign {ts us : List Token} {t : Token} {target value : Expr} (htarget : IsExpr .or ts target)
    (ht : t.kind = .mark .equal) (hvalue : IsExpr .assign us value) :
    IsExpr .assign (ts ++ t :: us) (.assign (lead ts) target value)
  | logical {level level' : Level} {m : Mark} {op : LogicalOp} {ts us : List Token} {t : Token}
    {e : Expr} {es : List Expr} (hop : level.connective? = some (m, op))
    (hnext : level.next? = some level') (he : IsExpr level' ts e) (ht : t.kind = .mark m)
    (hes : IsChain m level' us es) :
    IsExpr level (ts ++ t :: us) (.logical (lead ts) op (e :: es))
  | binary {level level' : Level} {m : Mark} {op : BinaryOp} {ts us : List Token} {t : Token}
    {left right : Expr} (hop : (m, op) ∈ level.operators) (hnext : level.next? = some level')
    (hleft : IsExpr level ts left) (ht : t.kind = .mark m) (hright : IsExpr level' us right) :
    IsExpr level (ts ++ t :: us) (.binary (lead ts) op left right)
  | unary {m : Mark} {op : UnaryOp} {t : Token} {us : List Token} {e : Expr}
    (hop : (m, op) ∈ prefixes) (ht : t.kind = .mark m) (h : IsExpr .unary us e) :
    IsExpr .unary (t :: us) (.unary t.pos op e)
  | callEmpty {ts : List Token} {t t' : Token} {callee : Expr} (h : IsExpr .call ts callee)
    (ht : t.kind = .mark .openParen) (ht' : t'.kind = .mark .closeParen) :
    IsExpr .call (ts ++ [t, t']) (.call (lead ts) callee [])
  | call {ts us : List Token} {t t' : Token} {callee : Expr} {args : List Expr}
    (h : IsExpr .call ts callee) (ht : t.kind = .mark .openParen)
    (hargs : IsChain .comma .assign us args) (ht' : t'.kind = .mark .closeParen) :
    IsExpr .call (ts ++ t :: (us ++ [t'])) (.call (lead ts) callee args)
  | parens {us : List Token} {t t' : Token} {e : Expr} (ht : t.kind = .mark .openParen)
    (h : IsExpr .assign us e) (ht' : t'.kind = .mark .closeParen) :
    IsExpr .primary (t :: (us ++ [t'])) e
  | atom {t : Token} {e : Expr} (h : IsAtom t e) : IsExpr .primary [t] e

/-- Phrases of a level, at least one, with a mark between them. -/
inductive IsChain : Mark → Level → List Token → List Expr → Prop
  | one {m : Mark} {level : Level} {ts : List Token} {e : Expr} (h : IsExpr level ts e) :
    IsChain m level ts [e]
  | more {m : Mark} {level : Level} {ts us : List Token} {t : Token} {e : Expr} {es : List Expr}
    (h : IsExpr level ts e) (ht : t.kind = .mark m) (hes : IsChain m level us es) :
    IsChain m level (ts ++ t :: us) (e :: es)

end

/-- An expression, or nothing. -/
inductive IsOptional : List Token → Option Expr → Prop
  | none : IsOptional [] none
  | some {ts : List Token} {e : Expr} (h : IsExpr .assign ts e) : IsOptional ts (some e)

/-- An expression in parentheses. -/
inductive IsCondition : List Token → Expr → Prop
  | mk {t t' : Token} {ts : List Token} {e : Expr} (ht : t.kind = .mark .openParen)
    (h : IsExpr .assign ts e) (ht' : t'.kind = .mark .closeParen) :
    IsCondition (t :: (ts ++ [t'])) e

/-! ### Declarations -/

end Grammar

/-- The word for a base type. -/
def Base.word : Base → Keyword
  | .void => .voidWord
  | .int => .intWord
  | .char => .charWord

/-- A base type as a type. -/
def Base.ty : Base → Ty
  | .void => .void
  | .int => .int
  | .char => .char

/-- The type of an element. -/
def Elem.ty : Elem → Ty
  | .int => .int
  | .char => .char
  | .pointer base => .pointer base

namespace Grammar

/-- The word for a base type, and behind it at most one star. -/
inductive IsType : List Token → Ty → Prop
  | base {t : Token} {base : Base} (ht : t.kind = .keyword base.word) : IsType [t] base.ty
  | pointer {t star : Token} {base : Base} (ht : t.kind = .keyword base.word)
    (hstar : star.kind = .mark .star) : IsType [t, star] (.pointer base)

/-- A parameter, which is not void. -/
inductive IsParam : List Token → Param → Prop
  | mk {ts : List Token} {name : Token} {ty : Ty} (hty : IsType ts ty)
    (hname : name.kind = .identifier) (hvoid : ty ≠ .void) : IsParam (ts ++ [name]) ⟨name.text, ty⟩

/-- Parameters, at least one, with commas between them. -/
inductive IsParamList : List Token → List Param → Prop
  | one {ts : List Token} {p : Param} (h : IsParam ts p) : IsParamList ts [p]
  | more {ts us : List Token} {t : Token} {p : Param} {ps : List Param} (h : IsParam ts p)
    (ht : t.kind = .mark .comma) (hps : IsParamList us ps) : IsParamList (ts ++ t :: us) (p :: ps)

/-- The parameters of a function in their parentheses. -/
inductive IsParams : List Token → List Param → Prop
  | void {t word t' : Token} (ht : t.kind = .mark .openParen)
    (hword : word.kind = .keyword .voidWord) (ht' : t'.kind = .mark .closeParen) :
    IsParams [t, word, t'] []
  | empty {t t' : Token} (ht : t.kind = .mark .openParen) (ht' : t'.kind = .mark .closeParen) :
    IsParams [t, t'] []
  | list {t t' : Token} {ts : List Token} {ps : List Param} (ht : t.kind = .mark .openParen)
    (h : IsParamList ts ps) (ht' : t'.kind = .mark .closeParen) : IsParams (t :: (ts ++ [t'])) ps

/-- `const` or not, then a type and a name. -/
inductive IsHead : List Token → Bool → Ty → String → Prop
  | plain {ts : List Token} {name : Token} {ty : Ty} (hty : IsType ts ty)
    (hname : name.kind = .identifier) : IsHead (ts ++ [name]) false ty name.text
  | const {word : Token} {ts : List Token} {name : Token} {ty : Ty}
    (hword : word.kind = .keyword .constWord) (hty : IsType ts ty)
    (hname : name.kind = .identifier) : IsHead (word :: (ts ++ [name])) true ty name.text

/-- The declaration of a variable. A variable is not void, and an array has at least one element,
which is not void, and no initial value. -/
inductive IsVariable : List Token → Variable → Prop
  | array {ts : List Token} {t size t' semicolon : Token} {constant : Bool} {elem : Elem}
    {name : String} {count : UInt16} (hhead : IsHead ts constant elem.ty name)
    (ht : t.kind = .mark .openBracket) (hsize : size.kind = .number count) (hcount : count ≠ 0)
    (ht' : t'.kind = .mark .closeBracket) (hsemicolon : semicolon.kind = .mark .semicolon) :
    IsVariable (ts ++ [t, size, t', semicolon]) ⟨name, .array elem count.toNat, constant, none⟩
  | initialized {ts us : List Token} {t semicolon : Token} {constant : Bool} {ty : Ty}
    {name : String} {init : Expr} (hhead : IsHead ts constant ty name) (hvoid : ty ≠ .void)
    (ht : t.kind = .mark .equal) (hinit : IsExpr .assign us init)
    (hsemicolon : semicolon.kind = .mark .semicolon) :
    IsVariable (ts ++ t :: (us ++ [semicolon])) ⟨name, ty, constant, some init⟩
  | bare {ts : List Token} {semicolon : Token} {constant : Bool} {ty : Ty} {name : String}
    (hhead : IsHead ts constant ty name) (hvoid : ty ≠ .void)
    (hsemicolon : semicolon.kind = .mark .semicolon) :
    IsVariable (ts ++ [semicolon]) ⟨name, ty, constant, none⟩

/-! ### Statements -/

mutual

/-- The tokens are a statement that is no declaration. -/
inductive IsStmt : List Token → Stmt → Prop
  | block {t t' : Token} {ts : List Token} {items : List Stmt} (ht : t.kind = .mark .openBrace)
    (h : IsItems ts items) (ht' : t'.kind = .mark .closeBrace) :
    IsStmt (t :: (ts ++ [t'])) (.block t.pos items)
  | ifThen {t : Token} {ts us : List Token} {cond : Expr} {yes : Stmt}
    (ht : t.kind = .keyword .ifWord) (hcond : IsCondition ts cond) (hyes : IsStmt us yes) :
    IsStmt (t :: (ts ++ us)) (.ifThen t.pos cond yes)
  | ifElse {t t' : Token} {ts us vs : List Token} {cond : Expr} {yes no : Stmt}
    (ht : t.kind = .keyword .ifWord) (hcond : IsCondition ts cond) (hyes : IsStmt us yes)
    (hclosed : yes.isOpen = false) (ht' : t'.kind = .keyword .elseWord) (hno : IsStmt vs no) :
    IsStmt (t :: (ts ++ (us ++ t' :: vs))) (.ifElse t.pos cond yes no)
  | whileLoop {t : Token} {ts us : List Token} {cond : Expr} {body : Stmt}
    (ht : t.kind = .keyword .whileWord) (hcond : IsCondition ts cond) (hbody : IsStmt us body) :
    IsStmt (t :: (ts ++ us)) (.whileLoop t.pos cond body)
  | forLoop {t open_ semicolon semicolon' close : Token} {ts us vs ws : List Token}
    {init cond step : Option Expr} {body : Stmt} (ht : t.kind = .keyword .forWord)
    (hopen : open_.kind = .mark .openParen) (hinit : IsOptional ts init)
    (hsemicolon : semicolon.kind = .mark .semicolon) (hcond : IsOptional us cond)
    (hsemicolon' : semicolon'.kind = .mark .semicolon) (hstep : IsOptional vs step)
    (hclose : close.kind = .mark .closeParen) (hbody : IsStmt ws body) :
    IsStmt (t :: open_ :: (ts ++ semicolon :: (us ++ semicolon' :: (vs ++ close :: ws))))
      (.forLoop t.pos init cond step body)
  | ret {t semicolon : Token} {ts : List Token} {value : Option Expr}
    (ht : t.kind = .keyword .returnWord) (hvalue : IsOptional ts value)
    (hsemicolon : semicolon.kind = .mark .semicolon) :
    IsStmt (t :: (ts ++ [semicolon])) (.ret t.pos value)
  | expr {semicolon : Token} {ts : List Token} {e : Expr} (h : IsExpr .assign ts e)
    (hsemicolon : semicolon.kind = .mark .semicolon) :
    IsStmt (ts ++ [semicolon]) (.expr (first ts) e)

/-- The tokens are a declaration or a statement. -/
inductive IsItem : List Token → Stmt → Prop
  | stmt {ts : List Token} {stmt : Stmt} (h : IsStmt ts stmt) : IsItem ts stmt
  | var {ts : List Token} {decl : Variable} (h : IsVariable ts decl) :
    IsItem ts (.var (first ts) decl)
  | prototype {ts us : List Token} {semicolon : Token} {constant : Bool} {result : Ty}
    {name : String} {params : List Param} (hhead : IsHead ts constant result name)
    (hparams : IsParams us params) (hsemicolon : semicolon.kind = .mark .semicolon) :
    IsItem (ts ++ (us ++ [semicolon])) (.prototype (first ts) ⟨name, result, params⟩)
  | function {ts us vs : List Token} {constant : Bool} {result : Ty} {name : String}
    {params : List Param} {body : Stmt} (hhead : IsHead ts constant result name)
    (hparams : IsParams us params) (hbody : IsStmt vs body) :
    IsItem (ts ++ (us ++ vs)) (.function (first ts) ⟨name, result, params⟩ body)

/-- The tokens are a sequence of declarations and statements. -/
inductive IsItems : List Token → List Stmt → Prop
  | nil : IsItems [] []
  | cons {ts us : List Token} {item : Stmt} {items : List Stmt} (h : IsItem ts item)
    (hs : IsItems us items) : IsItems (ts ++ us) (item :: items)

end

end Grammar

end WordC
