import Mathlib.Algebra.GroupWithZero.Nat
import WordC.Stmt

/-!
# Parts of syntax trees

What can be read off an expression or a statement without lowering it:

* `LogicalOp.outcome`: the value of a logical operator;
* `Expr.literals`, `Stmt.literals`: the texts of the string literals, in the order in which they are
  lowered;
* `Expr.isCallFree`, `Stmt.isCallFree`: no call stands in it;
* `Expr.calls`, `Stmt.calls`: the calls that stand in it;
* `Stmt.vars`, `Stmt.prototypes`, `Stmt.definitions`: the names of the variables, of the functions
  declared and of those defined in it;
* `Stmt.contents`: these names and the string literals together;
* `Stmt.decls`, `wordsOf`: the declarations of the variables, and the words they take;
* `Stmt.functions`: the function definitions themselves;
* `Stmt.items`: the statements of a block.

`Stmt.induct` is the induction over statements that later proofs use.
-/

namespace WordC

/-- What a logical operator gives, by whether one of its operands decides. -/
def LogicalOp.outcome : LogicalOp → Bool → UInt16
  | .or, decided => if decided then 1 else 0
  | .and, decided => if decided then 0 else 1

namespace Expr

mutual

/-- The texts of the string literals in an expression, from left to right. -/
def literals : Expr → List String
  | .assign _ target value => target.literals ++ value.literals
  | .logical _ _ operands => literalsOfAll operands
  | .binary _ _ left right => left.literals ++ right.literals
  | .unary _ _ operand => operand.literals
  | .call _ callee args => callee.literals ++ literalsOfAll args
  | .text _ content => [content]
  | .name _ _ | .number _ _ | .character _ _ | .bool _ _ => []

/-- The texts of the string literals in a list of expressions. -/
def literalsOfAll : List Expr → List String
  | [] => []
  | e :: es => e.literals ++ literalsOfAll es

end

mutual

/-- No call stands in the expression. -/
def isCallFree : Expr → Bool
  | .assign _ target value => target.isCallFree && value.isCallFree
  | .logical _ _ operands => areCallFree operands
  | .binary _ _ left right => left.isCallFree && right.isCallFree
  | .unary _ _ operand => operand.isCallFree
  | .call _ _ _ => false
  | .name _ _ | .number _ _ | .text _ _ | .character _ _ | .bool _ _ => true

/-- No call stands in any of the expressions. -/
def areCallFree : List Expr → Bool
  | [] => true
  | e :: es => e.isCallFree && areCallFree es

end

mutual

/-- The calls in an expression, each one in front of those inside it. -/
def calls : Expr → List Expr
  | .assign _ target value => target.calls ++ value.calls
  | .logical _ _ operands => callsOfAll operands
  | .binary _ _ left right => left.calls ++ right.calls
  | .unary _ _ operand => operand.calls
  | .call pos callee args => .call pos callee args :: (callee.calls ++ callsOfAll args)
  | .name _ _ | .number _ _ | .text _ _ | .character _ _ | .bool _ _ => []

/-- The calls in a list of expressions. -/
def callsOfAll : List Expr → List Expr
  | [] => []
  | e :: es => e.calls ++ callsOfAll es

end

/-- Where an assignment may go there is no string literal. -/
theorem literals_of_place? {target : Expr} {place : Place} (h : target.place? = some place) :
    target.literals = [] := by
  unfold place? at h
  split at h
  · rfl
  · rfl
  · cases h

/-- Where an assignment may go there is no call. -/
theorem calls_of_place? {target : Expr} {place : Place} (h : target.place? = some place) :
    target.calls = [] := by
  unfold place? at h
  split at h
  · rfl
  · rfl
  · cases h

end Expr

/-- The string literals of an expression that may be missing. -/
def Expr.literals? (e : Option Expr) : List String := (e.map Expr.literals).getD []

@[simp] theorem Expr.literals?_none : Expr.literals? none = [] := rfl

@[simp] theorem Expr.literals?_some (e : Expr) : Expr.literals? (some e) = e.literals := rfl

/-- No call stands in an expression that may be missing. -/
def Expr.isCallFree? (e : Option Expr) : Bool := (e.map Expr.isCallFree).getD true

/-- The calls in an expression that may be missing. -/
def Expr.calls? (e : Option Expr) : List Expr := (e.map Expr.calls).getD []

/-- What the statements of a program declare, in the order of the declarations, and the texts of
their string literals. -/
structure Contents where
  vars : List String := []
  prototypes : List String := []
  definitions : List String := []
  literals : List String := []

namespace Contents

instance : Append Contents where
  append c d := ⟨c.vars ++ d.vars, c.prototypes ++ d.prototypes,
    c.definitions ++ d.definitions, c.literals ++ d.literals⟩

variable (c d : Contents)

@[simp] theorem vars_append : (c ++ d).vars = c.vars ++ d.vars := rfl
@[simp] theorem prototypes_append : (c ++ d).prototypes = c.prototypes ++ d.prototypes := rfl
@[simp] theorem definitions_append : (c ++ d).definitions = c.definitions ++ d.definitions := rfl
@[simp] theorem literals_append : (c ++ d).literals = c.literals ++ d.literals := rfl

@[simp] theorem mk_append_mk (v p f l v' p' f' l' : List String) :
    (⟨v, p, f, l⟩ ++ ⟨v', p', f', l'⟩ : Contents) =
      ⟨v ++ v', p ++ p', f ++ f', l ++ l'⟩ := rfl

@[simp] theorem append_empty : c ++ ({} : Contents) = c := by
  cases c
  simp

end Contents

namespace Stmt

mutual

/-- The texts of the string literals in a statement. The step of a loop comes after its body. -/
def literals : Stmt → List String
  | .var _ decl => Expr.literals? decl.init
  | .prototype _ _ => []
  | .function _ _ body => body.literals
  | .block _ items => literalsOfAll items
  | .expr _ e => e.literals
  | .ifThen _ cond yes => cond.literals ++ yes.literals
  | .ifElse _ cond yes no => cond.literals ++ (yes.literals ++ no.literals)
  | .whileLoop _ cond body => cond.literals ++ body.literals
  | .forLoop _ init cond step body =>
    Expr.literals? init ++ (Expr.literals? cond ++ (body.literals ++ Expr.literals? step))
  | .ret _ value => Expr.literals? value

/-- The texts of the string literals in a list of statements. -/
def literalsOfAll : List Stmt → List String
  | [] => []
  | item :: items => item.literals ++ literalsOfAll items

end

mutual

/-- No call stands in the statement. -/
def isCallFree : Stmt → Bool
  | .var _ decl => Expr.isCallFree? decl.init
  | .prototype _ _ => true
  | .function _ _ body => body.isCallFree
  | .block _ items => areCallFree items
  | .expr _ e => e.isCallFree
  | .ifThen _ cond yes => cond.isCallFree && yes.isCallFree
  | .ifElse _ cond yes no => cond.isCallFree && yes.isCallFree && no.isCallFree
  | .whileLoop _ cond body => cond.isCallFree && body.isCallFree
  | .forLoop _ init cond step body =>
    Expr.isCallFree? init && Expr.isCallFree? cond && Expr.isCallFree? step && body.isCallFree
  | .ret _ value => Expr.isCallFree? value

/-- No call stands in any of the statements. -/
def areCallFree : List Stmt → Bool
  | [] => true
  | item :: items => item.isCallFree && areCallFree items

end

mutual

/-- The calls in a statement. -/
def calls : Stmt → List Expr
  | .var _ decl => Expr.calls? decl.init
  | .prototype _ _ => []
  | .function _ _ body => body.calls
  | .block _ items => callsOfAll items
  | .expr _ e => e.calls
  | .ifThen _ cond yes => cond.calls ++ yes.calls
  | .ifElse _ cond yes no => cond.calls ++ (yes.calls ++ no.calls)
  | .whileLoop _ cond body => cond.calls ++ body.calls
  | .forLoop _ init cond step body =>
    Expr.calls? init ++ (Expr.calls? cond ++ (body.calls ++ Expr.calls? step))
  | .ret _ value => Expr.calls? value

/-- The calls in a list of statements. -/
def callsOfAll : List Stmt → List Expr
  | [] => []
  | item :: items => item.calls ++ callsOfAll items

end

mutual

/-- The names of the functions that are defined in a statement. -/
def definitions : Stmt → List String
  | .function _ head body => head.name :: body.definitions
  | .block _ items => definitionsOfAll items
  | .ifThen _ _ yes => yes.definitions
  | .ifElse _ _ yes no => yes.definitions ++ no.definitions
  | .whileLoop _ _ body | .forLoop _ _ _ _ body => body.definitions
  | .var _ _ | .prototype _ _ | .expr _ _ | .ret _ _ => []

/-- The names of the functions that are defined in a list of statements. -/
def definitionsOfAll : List Stmt → List String
  | [] => []
  | item :: items => item.definitions ++ definitionsOfAll items

end

mutual

/-- The names of the functions that are declared without a body in a statement. -/
def prototypes : Stmt → List String
  | .prototype _ head => [head.name]
  | .function _ _ body => body.prototypes
  | .block _ items => prototypesOfAll items
  | .ifThen _ _ yes => yes.prototypes
  | .ifElse _ _ yes no => yes.prototypes ++ no.prototypes
  | .whileLoop _ _ body | .forLoop _ _ _ _ body => body.prototypes
  | .var _ _ | .expr _ _ | .ret _ _ => []

/-- The names of the functions that are declared without a body in a list of statements. -/
def prototypesOfAll : List Stmt → List String
  | [] => []
  | item :: items => item.prototypes ++ prototypesOfAll items

end

mutual

/-- The names of the variables that are declared in a statement, parameters apart. -/
def vars : Stmt → List String
  | .var _ decl => [decl.name]
  | .function _ _ body => body.vars
  | .block _ items => varsOfAll items
  | .ifThen _ _ yes => yes.vars
  | .ifElse _ _ yes no => yes.vars ++ no.vars
  | .whileLoop _ _ body | .forLoop _ _ _ _ body => body.vars
  | .prototype _ _ | .expr _ _ | .ret _ _ => []

/-- The names of the variables that are declared in a list of statements. -/
def varsOfAll : List Stmt → List String
  | [] => []
  | item :: items => item.vars ++ varsOfAll items

end

mutual

/-- The declarations of the variables in a statement, parameters apart. -/
def decls : Stmt → List Variable
  | .var _ decl => [decl]
  | .function _ _ body => body.decls
  | .block _ items => declsOfAll items
  | .ifThen _ _ yes => yes.decls
  | .ifElse _ _ yes no => yes.decls ++ no.decls
  | .whileLoop _ _ body | .forLoop _ _ _ _ body => body.decls
  | .prototype _ _ | .expr _ _ | .ret _ _ => []

/-- The declarations of the variables in a list of statements. -/
def declsOfAll : List Stmt → List Variable
  | [] => []
  | item :: items => item.decls ++ declsOfAll items

end

mutual

/-- The variables that a statement declares outside of function definitions, in order. -/
def outerDecls : Stmt → List Variable
  | .var _ decl => [decl]
  | .block _ items => outerDeclsOfAll items
  | .ifThen _ _ yes => yes.outerDecls
  | .ifElse _ _ yes no => yes.outerDecls ++ no.outerDecls
  | .whileLoop _ _ body | .forLoop _ _ _ _ body => body.outerDecls
  | .prototype _ _ | .function _ _ _ | .expr _ _ | .ret _ _ => []

/-- The variables that statements declare outside of function definitions, in order. -/
def outerDeclsOfAll : List Stmt → List Variable
  | [] => []
  | item :: items => item.outerDecls ++ outerDeclsOfAll items

end

mutual

/-- Without function definitions these are all variables. -/
theorem outerDecls_eq : ∀ {stmt : Stmt}, stmt.definitions = [] → stmt.outerDecls = stmt.decls
  | .var .., _ | .prototype .., _ | .expr .., _ | .ret .., _ => rfl
  | .function .., h => by simp [definitions] at h
  | .block .., h => by
    rw [definitions] at h
    rw [outerDecls, decls, outerDeclsOfAll_eq h]
  | .ifThen .., h => by
    rw [definitions] at h
    rw [outerDecls, decls, outerDecls_eq h]
  | .ifElse .., h => by
    rw [definitions, List.append_eq_nil_iff] at h
    rw [outerDecls, decls, outerDecls_eq h.1, outerDecls_eq h.2]
  | .whileLoop .., h => by
    rw [definitions] at h
    rw [outerDecls, decls, outerDecls_eq h]
  | .forLoop .., h => by
    rw [definitions] at h
    rw [outerDecls, decls, outerDecls_eq h]

theorem outerDeclsOfAll_eq :
    ∀ {items : List Stmt}, definitionsOfAll items = [] → outerDeclsOfAll items = declsOfAll items
  | [], _ => rfl
  | _ :: _, h => by
    rw [definitionsOfAll, List.append_eq_nil_iff] at h
    rw [outerDeclsOfAll, declsOfAll, outerDecls_eq h.1, outerDeclsOfAll_eq h.2]

end

mutual

/-- The function definitions in a statement. -/
def functions : Stmt → List Stmt
  | .function pos head body => .function pos head body :: body.functions
  | .block _ items => functionsOfAll items
  | .ifThen _ _ yes => yes.functions
  | .ifElse _ _ yes no => yes.functions ++ no.functions
  | .whileLoop _ _ body | .forLoop _ _ _ _ body => body.functions
  | .var _ _ | .prototype _ _ | .expr _ _ | .ret _ _ => []

/-- The function definitions in a list of statements. -/
def functionsOfAll : List Stmt → List Stmt
  | [] => []
  | item :: items => item.functions ++ functionsOfAll items

end

mutual

theorem functions_eq_nil : ∀ {stmt : Stmt}, stmt.definitions = [] → stmt.functions = []
  | .var .., _ | .prototype .., _ | .expr .., _ | .ret .., _ => rfl
  | .function .., h => by simp [definitions] at h
  | .block .., h => by
    rw [definitions] at h
    rw [functions, functionsOfAll_eq_nil h]
  | .ifThen .., h => by
    rw [definitions] at h
    rw [functions, functions_eq_nil h]
  | .ifElse .., h => by
    rw [definitions, List.append_eq_nil_iff] at h
    rw [functions, functions_eq_nil h.1, functions_eq_nil h.2, List.nil_append]
  | .whileLoop .., h => by
    rw [definitions] at h
    rw [functions, functions_eq_nil h]
  | .forLoop .., h => by
    rw [definitions] at h
    rw [functions, functions_eq_nil h]

theorem functionsOfAll_eq_nil :
    ∀ {items : List Stmt}, definitionsOfAll items = [] → functionsOfAll items = []
  | [], _ => rfl
  | _ :: _, h => by
    rw [definitionsOfAll, List.append_eq_nil_iff] at h
    rw [functionsOfAll, functions_eq_nil h.1, functionsOfAll_eq_nil h.2, List.nil_append]

end

/-- The statements of a block; any other statement alone. -/
def items : Stmt → List Stmt
  | .block _ items => items
  | stmt => [stmt]

theorem definitionsOfAll_items (stmt : Stmt) :
    definitionsOfAll stmt.items = stmt.definitions := by
  cases stmt <;> simp [items, definitions, definitionsOfAll]

theorem functionsOfAll_items (stmt : Stmt) : functionsOfAll stmt.items = stmt.functions := by
  cases stmt <;> simp [items, functions, functionsOfAll]

theorem mem_functionsOfAll {f : Stmt} {items : List Stmt} :
    f ∈ functionsOfAll items ↔ ∃ item ∈ items, f ∈ item.functions := by
  induction items with
  | nil => simp [functionsOfAll]
  | cons item items ih => simp [functionsOfAll, ih]

theorem declsOfAll_items (stmt : Stmt) : declsOfAll stmt.items = stmt.decls := by
  cases stmt <;> simp [items, decls, declsOfAll]

theorem callsOfAll_items (stmt : Stmt) : callsOfAll stmt.items = stmt.calls := by
  cases stmt <;> simp [items, calls, callsOfAll]

/-- What a statement declares and which texts it holds. -/
def contents (stmt : Stmt) : Contents :=
  ⟨stmt.vars, stmt.prototypes, stmt.definitions, stmt.literals⟩

/-- What a list of statements declares and which texts it holds. -/
def contentsOfAll (items : List Stmt) : Contents :=
  ⟨varsOfAll items, prototypesOfAll items, definitionsOfAll items, literalsOfAll items⟩

@[simp] theorem contentsOfAll_nil : contentsOfAll [] = {} := by
  simp [contentsOfAll, varsOfAll, prototypesOfAll, definitionsOfAll, literalsOfAll]

@[simp] theorem contentsOfAll_cons (item : Stmt) (items : List Stmt) :
    contentsOfAll (item :: items) = item.contents ++ contentsOfAll items := by
  simp [contentsOfAll, contents, varsOfAll, prototypesOfAll, definitionsOfAll, literalsOfAll]

theorem contentsOfAll_items (stmt : Stmt) : contentsOfAll stmt.items = stmt.contents := by
  cases stmt with
  | block pos items =>
    simp [Stmt.items, contents, contentsOfAll, vars, prototypes, definitions, literals]
  | _ => simp [Stmt.items]

/-- Induction over statements; for a function there is a hypothesis for each statement of its
outermost block. -/
@[elab_as_elim]
theorem induct {P : Stmt → Prop} (var : ∀ pos decl, P (.var pos decl))
    (prototype : ∀ pos head, P (.prototype pos head))
    (function : ∀ pos head body, (∀ item ∈ body.items, P item) → P (.function pos head body))
    (block : ∀ pos items, (∀ item ∈ items, P item) → P (.block pos items))
    (expr : ∀ pos e, P (.expr pos e))
    (ifThen : ∀ pos cond yes, P yes → P (.ifThen pos cond yes))
    (ifElse : ∀ pos cond yes no, P yes → P no → P (.ifElse pos cond yes no))
    (whileLoop : ∀ pos cond body, P body → P (.whileLoop pos cond body))
    (forLoop : ∀ pos init cond step body, P body → P (.forLoop pos init cond step body))
    (ret : ∀ pos value, P (.ret pos value)) (stmt : Stmt) : P stmt := by
  have alone {stmt : Stmt} (h : P stmt) : ∀ item ∈ [stmt], P item := by simpa using h
  have both : P stmt ∧ ∀ item ∈ stmt.items, P item := by
    refine @Stmt.rec (fun stmt => P stmt ∧ ∀ item ∈ stmt.items, P item)
      (fun items => ∀ item ∈ items, P item) ?_ ?_ ?_ ?_ ?_ ?_ ?_ ?_ ?_ ?_ ?_ ?_ stmt
    · exact fun pos decl => ⟨var pos decl, alone (var pos decl)⟩
    · exact fun pos head => ⟨prototype pos head, alone (prototype pos head)⟩
    · intro pos head body ih
      exact ⟨function pos head body ih.2, alone (function pos head body ih.2)⟩
    · exact fun pos items ih => ⟨block pos items ih, ih⟩
    · exact fun pos e => ⟨expr pos e, alone (expr pos e)⟩
    · exact fun pos cond yes ih => ⟨ifThen pos cond yes ih.1, alone (ifThen pos cond yes ih.1)⟩
    · intro pos cond yes no ihy ihn
      exact ⟨ifElse pos cond yes no ihy.1 ihn.1, alone (ifElse pos cond yes no ihy.1 ihn.1)⟩
    · intro pos cond body ih
      exact ⟨whileLoop pos cond body ih.1, alone (whileLoop pos cond body ih.1)⟩
    · intro pos init cond step body ih
      exact ⟨forLoop pos init cond step body ih.1, alone (forLoop pos init cond step body ih.1)⟩
    · exact fun pos value => ⟨ret pos value, alone (ret pos value)⟩
    · simp
    · intro item items ih ihs
      simpa using ⟨ih.1, ihs⟩
  exact both.1

end Stmt

/-- The words of variables in a frame. -/
def wordsOf (decls : List Variable) : Nat := (decls.map fun decl => decl.ty.words).sum

@[simp] theorem wordsOf_nil : wordsOf [] = 0 := rfl

@[simp] theorem wordsOf_cons (decl : Variable) (decls : List Variable) :
    wordsOf (decl :: decls) = decl.ty.words + wordsOf decls := by simp [wordsOf]

@[simp] theorem wordsOf_append (decls decls' : List Variable) :
    wordsOf (decls ++ decls') = wordsOf decls + wordsOf decls' := by simp [wordsOf]

end WordC
