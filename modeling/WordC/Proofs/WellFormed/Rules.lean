import Mathlib.Logic.Function.Basic
import WordC.Proofs.Syntax

/-!
# Well-formed programs

When the names of a program are used as they are declared. A statement is read in an environment,
the names known at its start, and leaves the one behind it:

* `Env.Declares`: a name is new in its scope, or it is a function of the file declared again, with
  the same number of parameters and at most one body; the names of the file do not look like
  generated labels;
* `Expr.IsWellFormed`: names are declared, and what is assigned to is a variable that is neither
  constant nor an array, or what a declared name points to;
* `Stmt.IsWellFormed`: the parameters of a function share a scope with its outermost block, other
  blocks have their own, and outside of functions blocks have none.

The rules know nothing of code: neither of slots and labels nor of registers.
-/

namespace WordC

/-! ### Environments -/

/-- What a name is declared as. -/
inductive Entity
  | scalar (constant : Bool)
  | array
  | function (arity : Nat) (defined : Bool)
deriving DecidableEq, Repr

/-- What a variable of a type is declared as. -/
def Ty.entity (ty : Ty) (constant : Bool) : Entity :=
  if ty.isArray then .array else .scalar constant

/-- The names of the file, and inside a function those of its open scopes, the innermost first. -/
structure Env where
  file : String → Option Entity
  scopes : List (String → Option Entity)

namespace Env

/-- The start of a program. -/
def empty : Env := ⟨fun _ => none, []⟩

/-- What a name stands for. -/
def lookup (env : Env) (x : String) : Option Entity :=
  (env.scopes.findSome? fun scope => scope x).or (env.file x)

/-- Is the name declared? -/
def Knows (env : Env) (x : String) : Prop := ∃ entity, env.lookup x = some entity

/-- Open a scope. -/
def openScope (env : Env) : Env := { env with scopes := (fun _ => none) :: env.scopes }

/-- Close the innermost scope. -/
def closeScope (env : Env) : Env := { env with scopes := env.scopes.tail }

/-- Close all scopes. -/
def closeAll (env : Env) : Env := { env with scopes := [] }

/-- An `L` or `S` with one or more digits behind it. -/
def IsReserved (x : String) : Prop :=
  ∃ c digits, x.toList = c :: digits ∧ (c = 'L' ∨ c = 'S') ∧ digits ≠ [] ∧
    ∀ d ∈ digits, d.isDigit = true

/-- What a name of the file stands for after a declaration, given what it stood for before. -/
inductive Joins : Option Entity → Entity → Entity → Prop
  | new (entity : Entity) : Joins none entity entity
  /-- A function may be declared again, and at most once with a body. -/
  | again {arity : Nat} {defined defined' : Bool} (h : ¬ (defined = true ∧ defined' = true)) :
    Joins (some (.function arity defined)) (.function arity defined')
      (.function arity (defined || defined'))

/-- A name is declared in the innermost scope, or in the file. -/
inductive Declares : Env → String → Entity → Env → Prop
  | file {file : String → Option Entity} {x : String} {entity joined : Entity}
    (hname : ¬ IsReserved x) (h : Joins (file x) entity joined) :
    Declares ⟨file, []⟩ x entity ⟨Function.update file x (some joined), []⟩
  | scope {file scope : String → Option Entity} {outer : List (String → Option Entity)} {x : String}
    {entity : Entity} (h : scope x = none) :
    Declares ⟨file, scope :: outer⟩ x entity
      ⟨file, Function.update scope x (some entity) :: outer⟩

/-- Parameters are declared from left to right. -/
inductive DeclaresParams : Env → List Param → Env → Prop
  | nil (env : Env) : DeclaresParams env [] env
  | cons {env env' env'' : Env} {param : Param} {params : List Param}
    (h : env.Declares param.name (param.ty.entity false) env')
    (hs : DeclaresParams env' params env'') : DeclaresParams env (param :: params) env''

end Env

/-! ### Expressions -/

namespace Expr

/-- A variable that is neither constant nor an array, or what a declared name points to. -/
def IsAssignable (env : Env) : Expr → Prop
  | .name _ x => env.lookup x = some (.scalar false)
  | .unary _ .deref (.name _ x) => env.Knows x
  | _ => False

mutual

/-- The names in an expression are declared, and it assigns only to what it may. -/
def IsWellFormed (env : Env) : Expr → Prop
  | .name _ x => env.Knows x
  | .assign _ target value => target.IsAssignable env ∧ value.IsWellFormed env
  | .logical _ _ operands => AreWellFormed env operands
  | .binary _ _ left right => left.IsWellFormed env ∧ right.IsWellFormed env
  | .unary _ _ operand => operand.IsWellFormed env
  | .call _ callee args => callee.IsWellFormed env ∧ AreWellFormed env args
  | .number _ _ | .text _ _ | .character _ _ | .bool _ _ => True

/-- All of the expressions are well formed. -/
def AreWellFormed (env : Env) : List Expr → Prop
  | [] => True
  | e :: es => e.IsWellFormed env ∧ AreWellFormed env es

end

end Expr

/-! ### Statements -/

/-- The step of a loop stands in front of the body, and runs behind it. -/
inductive Order
  | asWritten | asRun
deriving DecidableEq, Repr

/-- Where the step of a loop is read, given the environments in front of and behind the body. -/
def Order.step (order : Order) (before after : Env) : Env :=
  match order with
  | .asWritten => before
  | .asRun => after

/-- The most parameters that a frame offset reaches. -/
def maxParams : Nat := 16382

/-- The most bytes of locals that a frame offset reaches. -/
def maxLocalBytes : Nat := 32768

namespace Stmt

mutual

/-- The statement is well formed in the first environment and leaves the second. -/
inductive IsWellFormed (order : Order) : Env → Stmt → Env → Prop
  /-- The initial value does not see the name. -/
  | var {env env' : Env} {pos : Position} {decl : Variable}
    (hinit : ∀ e ∈ decl.init, e.IsWellFormed env)
    (h : env.Declares decl.name (decl.ty.entity decl.constant) env') :
    IsWellFormed order env (.var pos decl) env'
  | prototype {env env' : Env} {pos : Position} {head : Signature} (hfile : env.scopes = [])
    (h : env.Declares head.name (.function head.params.length false) env') :
    IsWellFormed order env (.prototype pos head) env'
  /-- The body sees the name of the function. Its outermost block shares the scope of the
  parameters. -/
  | function {env env' env'' env₃ : Env} {pos : Position} {head : Signature} {body : Stmt}
    (hfile : env.scopes = [])
    (h : env.Declares head.name (.function head.params.length true) env')
    (hparams : env'.openScope.DeclaresParams head.params env'')
    (hbody : AreWellFormed order env'' body.items env₃)
    (hcount : head.params.length ≤ maxParams)
    (hwords : wordBytes * wordsOf body.decls ≤ maxLocalBytes) :
    IsWellFormed order env (.function pos head body) env₃.closeAll
  /-- A block in a function has a scope of its own. -/
  | block {env env' : Env} {pos : Position} {items : List Stmt} (hin : env.scopes ≠ [])
    (h : AreWellFormed order env.openScope items env') :
    IsWellFormed order env (.block pos items) env'.closeScope
  /-- Outside of functions the names of a block are those of the file. -/
  | fileBlock {env env' : Env} {pos : Position} {items : List Stmt} (hfile : env.scopes = [])
    (h : AreWellFormed order env items env') : IsWellFormed order env (.block pos items) env'
  | expr {env : Env} {pos : Position} {e : Expr} (h : e.IsWellFormed env) :
    IsWellFormed order env (.expr pos e) env
  | ifThen {env env' : Env} {pos : Position} {cond : Expr} {yes : Stmt}
    (hcond : cond.IsWellFormed env) (hyes : IsWellFormed order env yes env') :
    IsWellFormed order env (.ifThen pos cond yes) env'
  | ifElse {env env' env'' : Env} {pos : Position} {cond : Expr} {yes no : Stmt}
    (hcond : cond.IsWellFormed env) (hyes : IsWellFormed order env yes env')
    (hno : IsWellFormed order env' no env'') :
    IsWellFormed order env (.ifElse pos cond yes no) env''
  | whileLoop {env env' : Env} {pos : Position} {cond : Expr} {body : Stmt}
    (hcond : cond.IsWellFormed env) (hbody : IsWellFormed order env body env') :
    IsWellFormed order env (.whileLoop pos cond body) env'
  | forLoop {env env' : Env} {pos : Position} {init cond step : Option Expr} {body : Stmt}
    (hinit : ∀ e ∈ init, e.IsWellFormed env) (hcond : ∀ e ∈ cond, e.IsWellFormed env)
    (hbody : IsWellFormed order env body env')
    (hstep : ∀ e ∈ step, e.IsWellFormed (order.step env env')) :
    IsWellFormed order env (.forLoop pos init cond step body) env'
  | ret {env : Env} {pos : Position} {value : Option Expr} (hin : env.scopes ≠ [])
    (hvalue : ∀ e ∈ value, e.IsWellFormed env) : IsWellFormed order env (.ret pos value) env

/-- The statements are well formed one after the other. -/
inductive AreWellFormed (order : Order) : Env → List Stmt → Env → Prop
  | nil (env : Env) : AreWellFormed order env [] env
  | cons {env env' env'' : Env} {item : Stmt} {items : List Stmt}
    (h : IsWellFormed order env item env') (hs : AreWellFormed order env' items env'') :
    AreWellFormed order env (item :: items) env''

end

end Stmt

/-- The program is well formed, with its steps read in the given order. -/
def Program.IsWellFormed (order : Order) (program : Program) : Prop :=
  ∃ env, Stmt.AreWellFormed order .empty program env

/-! ### Open scopes -/

theorem Env.scopes_ne_nil {env env' : Env} (h : env'.scopes.length = env.scopes.length)
    (hin : env.scopes ≠ []) : env'.scopes ≠ [] := by
  rw [← List.length_pos_iff, h]
  exact List.length_pos_iff.2 hin

theorem Env.Declares.length_scopes {env env' : Env} {x : String} {entity : Entity}
    (h : env.Declares x entity env') : env'.scopes.length = env.scopes.length := by
  cases h <;> simp

namespace Stmt

variable {order : Order}

mutual

/-- A statement closes the scopes that it opens. -/
theorem IsWellFormed.length_scopes {stmt : Stmt} : ∀ {env env' : Env},
    stmt.IsWellFormed order env env' → env'.scopes.length = env.scopes.length
  | _, _, .var _ h => h.length_scopes
  | _, _, .prototype _ h => h.length_scopes
  | _, _, .function hfile .. => by simp [Env.closeAll, hfile]
  | _, _, .block _ h => by simp [Env.closeScope, h.length_scopes, Env.openScope]
  | _, _, .fileBlock _ h => h.length_scopes
  | _, _, .expr _ | _, _, .ret .. => rfl
  | _, _, .ifThen _ hyes => hyes.length_scopes
  | _, _, .ifElse _ hyes hno => hno.length_scopes.trans hyes.length_scopes
  | _, _, .whileLoop _ hbody | _, _, .forLoop _ _ hbody _ => hbody.length_scopes

theorem AreWellFormed.length_scopes {items : List Stmt} : ∀ {env env' : Env},
    AreWellFormed order env items env' → env'.scopes.length = env.scopes.length
  | _, _, .nil _ => rfl
  | _, _, .cons h hs => hs.length_scopes.trans h.length_scopes

end

end Stmt

end WordC
