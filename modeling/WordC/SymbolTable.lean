import WordC.Diagnostic
import WordC.Ty

/-!
# The symbol table

What the names of a program stand for. There are the names of the file, and inside a function a
stack of scopes, the innermost first. A name is declared in the innermost scope; looking it up goes
from the innermost scope outwards, and last to the file.

* `SymbolTable.declareM`: names of the file must not look like generated labels, and no name is
  declared twice in a scope, except that the declarations of a function may repeat as long as they
  agree on the number of parameters and at most one has a body
* `SymbolTable.attempt`: what comes of a declaration, and the table behind it
* `SymbolTable.declare`: the table behind a declaration that is taken
* `SymbolTable.lookup`
* `SymbolTable.statics`: the variables of the file in the order of their declarations
-/

namespace WordC

/-- What a name stands for. -/
inductive Symbol
  /-- A slot in the frame: arguments above the frame pointer, locals below. -/
  | stack (offset : Int16) (ty : Ty) (constant : Bool)
  /-- A variable of the file, at the label of its name. -/
  | static (ty : Ty) (constant : Bool)
  /-- A function; `defined` tells whether a body was seen. -/
  | function (arity : Nat) (defined : Bool)
deriving DecidableEq, Repr

/-- Is it a variable that may not be assigned to? -/
def Symbol.isConstant : Symbol → Bool
  | .stack _ _ constant | .static _ constant => constant
  | .function _ _ => false

/-- The names of a scope in the order of their first declarations. -/
abbrev Scope := List (String × Symbol)

namespace Scope

/-- What a name stands for in a scope. -/
def get? (scope : Scope) (name : String) : Option Symbol := List.lookup name scope

/-- Let a name stand for a symbol: in its old place if the scope has it, else at the end. -/
def insert (name : String) (symbol : Symbol) : Scope → Scope
  | [] => [(name, symbol)]
  | entry :: rest =>
    if entry.1 = name then (name, symbol) :: rest else entry :: insert name symbol rest

@[simp] theorem get?_nil (name : String) : get? [] name = none := rfl

theorem get?_cons (entry : String × Symbol) (rest : Scope) (name : String) :
    get? (entry :: rest) name = if entry.1 = name then some entry.2 else get? rest name := by
  obtain ⟨key, symbol⟩ := entry
  by_cases h : key = name
  · subst h; simp [get?]
  · have : (name == key) = false := by simpa using fun e => h e.symm
    simp [get?, List.lookup_cons, this, h]

/-- Looking up after an insertion. -/
theorem get?_insert (scope : Scope) (name other : String) (symbol : Symbol) :
    get? (insert name symbol scope) other =
      if name = other then some symbol else get? scope other := by
  induction scope with
  | nil => simp [insert, get?_cons]
  | cons entry rest ih =>
    by_cases h : entry.1 = name
    · by_cases h' : name = other <;> simp [insert, get?_cons, h, h']
    · by_cases h' : name = other
      · subst h'; simp [insert, get?_cons, h, ih]
      · simp [insert, get?_cons, h, h', ih]

end Scope

/-- The names of the file and of the open scopes, the innermost first. -/
structure SymbolTable where
  globals : Scope
  scopes : List Scope
deriving DecidableEq, Repr

/-- Does a name look like a generated label: `L` or `S` and digits? -/
def isGeneratedLabel (name : String) : Bool :=
  match name.toList with
  | c :: digits => (c = 'L' || c = 'S') && !digits.isEmpty && digits.all Char.isDigit
  | [] => false

/-- What a name stands for after a declaration, given what it stood for in the same scope. -/
def Symbol.merge? : Option Symbol → Symbol → Option Symbol
  | none, symbol => some symbol
  | some (.function arity defined), .function arity' defined' =>
    if arity = arity' ∧ ¬ (defined ∧ defined') then some (.function arity' (defined || defined'))
    else none
  | some _, _ => none

namespace SymbolTable

/-- No names and no open scopes. -/
def empty : SymbolTable := ⟨[], []⟩

/-- Open a scope. -/
def openScope (table : SymbolTable) : SymbolTable := { table with scopes := [] :: table.scopes }

/-- Close the innermost scope; without one nothing changes. -/
def closeScope (table : SymbolTable) : SymbolTable := { table with scopes := table.scopes.tail }

/-- Close all scopes. -/
def closeAll (table : SymbolTable) : SymbolTable := { table with scopes := [] }

/-- The scope of the next declaration. -/
def current (table : SymbolTable) : Scope := table.scopes.head?.getD table.globals

/-- Put another scope in the place of the current one. -/
def setCurrent (table : SymbolTable) (scope : Scope) : SymbolTable :=
  match table.scopes with
  | [] => { table with globals := scope }
  | _ :: outer => { table with scopes := scope :: outer }

/-- Declare a name in the current scope. -/
def declareM (name : String) (symbol : Symbol) : ExceptT Cause (StateM SymbolTable) Unit := do
  let table ← get
  if table.scopes.isEmpty && isGeneratedLabel name then
    throw (.reservedName name)
  else
    match Symbol.merge? (table.current.get? name) symbol with
    | some merged => set (table.setCurrent (table.current.insert name merged))
    | none => throw (.redeclared name)

/-- What comes of a declaration, and the table behind it in either case. -/
def attempt (table : SymbolTable) (name : String) (symbol : Symbol) :
    Except Cause Unit × SymbolTable :=
  (declareM name symbol).run.run table

/-- The table behind a declaration that is taken. -/
def declare (table : SymbolTable) (name : String) (symbol : Symbol) : Except Cause SymbolTable :=
  match table.attempt name symbol with
  | (.ok _, table') => .ok table'
  | (.error cause, _) => .error cause

/-- What a name stands for. -/
def lookup (table : SymbolTable) (name : String) : Option Symbol :=
  (table.scopes.findSome? fun scope => scope.get? name).or (table.globals.get? name)

/-- The variables of the file with their types. -/
def statics (table : SymbolTable) : List (String × Ty) :=
  table.globals.filterMap fun
    | (name, .static ty _) => some (name, ty)
    | _ => none

/-! ### Small facts -/

theorem attempt_eq (table : SymbolTable) (name : String) (symbol : Symbol) :
    table.attempt name symbol =
      if table.scopes.isEmpty && isGeneratedLabel name then (.error (.reservedName name), table)
      else
        match Symbol.merge? (table.current.get? name) symbol with
        | some merged => (.ok (), table.setCurrent (table.current.insert name merged))
        | none => (.error (.redeclared name), table) := by
  change (ite _ _ _ : ExceptT Cause (StateM SymbolTable) Unit).run.run table = _
  split
  · rfl
  · cases Symbol.merge? (table.current.get? name) symbol <;> rfl

theorem declare_eq (table : SymbolTable) (name : String) (symbol : Symbol) :
    table.declare name symbol =
      if table.scopes.isEmpty && isGeneratedLabel name then .error (.reservedName name)
      else
        match Symbol.merge? (table.current.get? name) symbol with
        | some merged => .ok (table.setCurrent (table.current.insert name merged))
        | none => .error (.redeclared name) := by
  rw [declare, attempt_eq]
  by_cases hreserved : (table.scopes.isEmpty && isGeneratedLabel name) = true
  · rw [if_pos hreserved, if_pos hreserved]
  · rw [if_neg hreserved, if_neg hreserved]
    cases Symbol.merge? (table.current.get? name) symbol <;> rfl

@[simp] theorem closeScope_openScope (table : SymbolTable) :
    table.openScope.closeScope = table := rfl

@[simp] theorem globals_openScope (table : SymbolTable) :
    table.openScope.globals = table.globals := rfl

@[simp] theorem globals_closeScope (table : SymbolTable) :
    table.closeScope.globals = table.globals := rfl

@[simp] theorem current_setCurrent (table : SymbolTable) (scope : Scope) :
    (table.setCurrent scope).current = scope := by
  unfold setCurrent current
  split <;> simp_all

end SymbolTable

end WordC
