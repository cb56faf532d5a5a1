import WordC.Proofs.SymbolTable

/-!
# Runs of operations on a symbol table

A run opens and closes scopes, declares names and looks them up, in any order. What a table is
behind a run is told by the declarations that succeeded in it (`History`): those of the file, and
those of each scope that is still open.

* `declaredAs`: what a name stands for after some declarations in one scope;
* `History.Describes`: the table holds what was declared, which each operation preserves;
* `run_openScope_closeScope`: a scope and all that happens in it leave nothing behind;
* `Symbol.Completes`: all that later declarations can do to a name of the file;
* `run_obeysRules`: the rules of the table, behind any run that begins with nothing.
-/

namespace WordC

/-! ### Declarations in one scope -/

/-- What a name stands for after declarations in one scope: what it was first declared as, and a
function has a body if one of its declarations has. -/
def declaredAs (decls : List (String × Symbol)) (x : String) : Option Symbol :=
  match (decls.filter fun decl => decl.1 = x).map Prod.snd with
  | [] => none
  | .function arity defined :: more =>
    some (.function arity (defined || more.any fun symbol => symbol.bodies = 1))
  | symbol :: _ => some symbol

@[simp] theorem declaredAs_nil (x : String) : declaredAs [] x = none := rfl

theorem declaredAs_append_of_ne {decls : List (String × Symbol)} {x y : String} (symbol : Symbol)
    (h : x ≠ y) : declaredAs (decls ++ [(x, symbol)]) y = declaredAs decls y := by
  have hfilter : (decls ++ [(x, symbol)]).filter (fun decl => decl.1 = y) =
      decls.filter fun decl => decl.1 = y := by
    simp [List.filter_append, h]
  rw [declaredAs, hfilter, declaredAs]

/-- A declaration that is taken makes the name stand for what the table merges. -/
theorem declaredAs_append {decls : List (String × Symbol)} {x : String} {symbol merged : Symbol}
    (h : Symbol.merge? (declaredAs decls x) symbol = some merged) :
    declaredAs (decls ++ [(x, symbol)]) x = some merged := by
  have hfilter : ((decls ++ [(x, symbol)]).filter fun decl => decl.1 = x).map Prod.snd =
      (decls.filter fun decl => decl.1 = x).map Prod.snd ++ [symbol] := by
    simp [List.filter_append]
  unfold declaredAs at h ⊢
  rw [hfilter]
  cases hold : (decls.filter fun decl => decl.1 = x).map Prod.snd with
  | nil =>
    rw [hold] at h
    obtain rfl : symbol = merged := by simpa [Symbol.merge?] using h
    cases symbol <;> simp
  | cons first more =>
    rw [hold] at h
    cases first with
    | stack => cases h
    | static => cases h
    | function arity defined =>
      cases symbol with
      | stack => cases h
      | static => cases h
      | function arity' defined' =>
        simp only [Symbol.merge?, Option.ite_none_right_eq_some, Option.some.injEq] at h
        obtain ⟨⟨rfl, -⟩, rfl⟩ := h
        cases defined' <;> simp [Symbol.bodies]

/-! ### Operations and runs -/

namespace SymbolTable

/-- What can be done with a symbol table. -/
inductive Op
  | openScope
  | closeScope
  | closeAll
  | declare (name : String) (symbol : Symbol)
  | lookup (name : String)
deriving DecidableEq, Repr

/-- The table behind an operation. -/
def step (table : SymbolTable) : Op → SymbolTable
  | .openScope => table.openScope
  | .closeScope => table.closeScope
  | .closeAll => table.closeAll
  | .declare x symbol => (table.attempt x symbol).2
  | .lookup _ => table

/-- The table behind a run. -/
def run (table : SymbolTable) (ops : List Op) : SymbolTable := ops.foldl step table

@[simp] theorem run_nil (table : SymbolTable) : table.run [] = table := rfl

@[simp] theorem run_cons (table : SymbolTable) (op : Op) (ops : List Op) :
    table.run (op :: ops) = (table.step op).run ops := rfl

@[simp] theorem run_append (table : SymbolTable) (ops ops' : List Op) :
    table.run (ops ++ ops') = (table.run ops).run ops' := List.foldl_append

/-- The declarations that succeeded, in order: those of the file, and those of each open scope, the
innermost first. -/
structure History where
  file : List (String × Symbol) := []
  scopes : List (List (String × Symbol)) := []

namespace History

/-- A declaration in the innermost scope, or in the file. -/
def declare (made : History) (x : String) (symbol : Symbol) : History :=
  match made.scopes with
  | [] => { made with file := made.file ++ [(x, symbol)] }
  | scope :: outer => { made with scopes := (scope ++ [(x, symbol)]) :: outer }

/-- The declarations behind an operation on the table. -/
def step (table : SymbolTable) (made : History) : Op → History
  | .openScope => { made with scopes := [] :: made.scopes }
  | .closeScope => { made with scopes := made.scopes.tail }
  | .closeAll => { made with scopes := [] }
  | .declare x symbol =>
    match table.declare x symbol with
    | .ok _ => made.declare x symbol
    | .error _ => made
  | .lookup _ => made

/-- The declarations behind a run. -/
def run (table : SymbolTable) (made : History) : List Op → History
  | [] => made
  | op :: ops => run (table.step op) (made.step table op) ops

end History

/-! ### The table holds what was declared -/

/-- The variables of the file among declarations. -/
def staticsOf (decls : List (String × Symbol)) : List (String × Ty) :=
  decls.filterMap fun
    | (x, .static ty _) => some (x, ty)
    | _ => none

/-- The table holds what was declared, in the file and in each open scope. -/
structure History.Describes (made : History) (table : SymbolTable) : Prop where
  file : table.globals.get? = declaredAs made.file
  scopes : table.scopes.map Scope.get? = made.scopes.map declaredAs
  statics : table.statics = staticsOf made.file
  bodies : ∀ x, (made.file.countP fun decl => decl.1 = x ∧ decl.2.bodies = 1) =
    table.globals.bodies x
  names : ∀ x symbol, table.globals.get? x = some symbol → isGeneratedLabel x = false

/-- A declaration that is taken is one more of its scope. -/
theorem get?_insert_eq_declaredAs {scope : Scope} {decls : List (String × Symbol)} {x : String}
    {symbol merged : Symbol} (hscope : scope.get? = declaredAs decls)
    (hmerge : Symbol.merge? (scope.get? x) symbol = some merged) :
    (scope.insert x merged).get? = declaredAs (decls ++ [(x, symbol)]) := by
  funext y
  rw [Scope.get?_insert]
  by_cases hxy : x = y
  · subst hxy
    rw [hscope] at hmerge
    rw [if_pos rfl, declaredAs_append hmerge]
  · rw [if_neg hxy, declaredAs_append_of_ne symbol hxy, hscope]

/-- In place of a function, or behind the others, a function adds no variable. -/
theorem staticsOf_insert_function {x : String} {arity : Nat} {defined : Bool} {scope : Scope}
    (h : ∀ ty constant, scope.get? x ≠ some (.static ty constant)) :
    staticsOf (scope.insert x (.function arity defined)) = staticsOf scope := by
  induction scope with
  | nil => rfl
  | cons entry rest ih =>
    obtain ⟨y, symbol⟩ := entry
    by_cases hxy : y = x
    · subst hxy
      cases symbol with
      | static ty constant => exact absurd (by simp [Scope.get?_cons]) (h ty constant)
      | stack | function => simp [Scope.insert, staticsOf]
    · have hrest := ih (by simpa [Scope.get?_cons, hxy] using h)
      simp only [Scope.insert, hxy, if_false, staticsOf, List.filterMap_cons] at hrest ⊢
      rw [hrest]

/-- A declaration that is taken adds its variable behind the others, if it is one of a variable. -/
theorem staticsOf_insert {scope : Scope} {x : String} {symbol merged : Symbol}
    (h : Symbol.merge? (scope.get? x) symbol = some merged) :
    staticsOf (scope.insert x merged) = staticsOf scope ++ staticsOf [(x, symbol)] := by
  cases hold : scope.get? x with
  | none =>
    rw [hold] at h
    obtain rfl : symbol = merged := by simpa [Symbol.merge?] using h
    rw [Scope.insert_of_get? symbol hold, staticsOf, List.filterMap_append, staticsOf, staticsOf]
  | some old =>
    rw [hold] at h
    -- only a function is declared again, as a function
    obtain ⟨arity, defined, rfl⟩ : ∃ arity defined, old = .function arity defined := by
      cases old with
      | function arity defined => exact ⟨arity, defined, rfl⟩
      | stack | static => cases h
    obtain ⟨arity', defined', rfl⟩ : ∃ arity defined, symbol = .function arity defined := by
      cases symbol with
      | function arity defined => exact ⟨arity, defined, rfl⟩
      | stack | static => cases h
    simp only [Symbol.merge?, Option.ite_none_right_eq_some, Option.some.injEq] at h
    obtain ⟨-, rfl⟩ := h
    rw [staticsOf_insert_function (by simp [hold])]
    simp [staticsOf]

/-- A declaration that is taken adds its body to those of the name. -/
theorem bodies_insert {scope : Scope} {x : String} {symbol merged : Symbol}
    (h : Symbol.merge? (scope.get? x) symbol = some merged) (y : String) :
    (scope.insert x merged).bodies y =
      scope.bodies y + if x = y ∧ symbol.bodies = 1 then 1 else 0 := by
  unfold Scope.bodies
  rw [Scope.get?_insert]
  by_cases hxy : x = y
  · subst hxy
    have hle := symbol.bodies_le_one
    have hbodies := Symbol.bodies_of_merge? h
    rw [if_pos rfl, Option.map_some, Option.getD_some, hbodies]
    simp only [true_and]
    split <;> omega
  · rw [if_neg hxy, if_neg (fun h => hxy h.1), Nat.add_zero]

namespace History.Describes

variable {made : History} {table table' : SymbolTable} {x : String} {symbol : Symbol}

theorem empty : History.Describes {} .empty where
  file := rfl
  scopes := rfl
  statics := rfl
  bodies _ := rfl
  names _ _ h := by cases h

/-- A declaration that is taken outside of scopes is one of the file. -/
theorem declareFile {merged : Symbol} (h : made.Describes table)
    (hname : isGeneratedLabel x = false)
    (hmerge : Symbol.merge? (table.globals.get? x) symbol = some merged) :
    History.Describes ⟨made.file ++ [(x, symbol)], []⟩ ⟨table.globals.insert x merged, []⟩ where
  file := get?_insert_eq_declaredAs h.file hmerge
  scopes := rfl
  statics := by
    have hbefore : staticsOf table.globals = staticsOf made.file := h.statics
    change staticsOf (table.globals.insert x merged) = _
    rw [staticsOf_insert hmerge, hbefore, staticsOf, staticsOf, staticsOf, List.filterMap_append]
  bodies y := by
    rw [bodies_insert hmerge, ← h.bodies, List.countP_append, List.countP_singleton]
    simp only [decide_eq_true_eq]
  names y other hy := by
    rw [Scope.get?_insert] at hy
    split at hy
    · rename_i hxy
      exact hxy ▸ hname
    · exact h.names y other hy

/-- A declaration that is taken is one of the innermost scope, or of the file. -/
theorem declare (h : made.Describes table) (hok : table.declare x symbol = .ok table') :
    (made.declare x symbol).Describes table' := by
  obtain ⟨merged, hscopes, hname, hmerge, rfl⟩ | ⟨scope, outer, merged, hscopes, hmerge, rfl⟩ :=
    declare_ok hok
  · have hnone : made.scopes = [] := by simpa [hscopes] using h.scopes.symm
    rw [History.declare, hnone]
    exact h.declareFile hname hmerge
  · obtain ⟨decls, rest, hmade, hscope, houter⟩ : ∃ decls rest, made.scopes = decls :: rest ∧
        declaredAs decls = scope.get? ∧ rest.map declaredAs = outer.map Scope.get? := by
      have hmap := h.scopes
      rw [hscopes, List.map_cons] at hmap
      exact List.map_eq_cons_iff.1 hmap.symm
    rw [History.declare, hmade]
    refine ⟨h.file, ?_, h.statics, h.bodies, h.names⟩
    rw [List.map_cons, List.map_cons, houter, get?_insert_eq_declaredAs hscope.symm hmerge]

/-- Each operation keeps what was declared in the table. -/
theorem step (h : made.Describes table) (op : Op) :
    (made.step table op).Describes (table.step op) := by
  cases op with
  | openScope =>
    have hscopes : (Scope.get? [] :: table.scopes.map Scope.get?) =
        declaredAs [] :: made.scopes.map declaredAs := by
      rw [h.scopes]
      rfl
    exact ⟨h.file, hscopes, h.statics, h.bodies, h.names⟩
  | closeScope =>
    have hscopes : table.scopes.tail.map Scope.get? = made.scopes.tail.map declaredAs := by
      rw [List.map_tail, List.map_tail, h.scopes]
    exact ⟨h.file, hscopes, h.statics, h.bodies, h.names⟩
  | closeAll => exact ⟨h.file, rfl, h.statics, h.bodies, h.names⟩
  | lookup x => exact h
  | declare x symbol =>
    cases hresult : table.declare x symbol with
    | ok table' =>
      rw [SymbolTable.step, attempt_of_ok hresult, History.step, hresult]
      exact h.declare hresult
    | error cause =>
      rw [SymbolTable.step, attempt_of_error hresult, History.step, hresult]
      exact h

theorem run (ops : List Op) (h : made.Describes table) :
    (made.run table ops).Describes (table.run ops) := by
  induction ops generalizing made table with
  | nil => exact h
  | cons op ops ih => exact ih (h.step op)

/-- A name is found in the innermost open scope in which it was declared, and else in the file. -/
theorem lookup_eq_some_iff (h : made.Describes table) {x : String} {symbol : Symbol} :
    table.lookup x = some symbol ↔
      (∃ inner decls outer, made.scopes = inner ++ decls :: outer ∧
        declaredAs decls x = some symbol ∧ ∀ other ∈ inner, declaredAs other x = none) ∨
      (∀ decls ∈ made.scopes, declaredAs decls x = none) ∧
        declaredAs made.file x = some symbol := by
  have hfound : (table.scopes.findSome? fun scope => scope.get? x) =
      made.scopes.findSome? fun decls => declaredAs decls x := by
    have hmap := congrArg (List.findSome? fun get : String → Option Symbol => get x) h.scopes
    simpa only [List.findSome?_map, Function.comp_def] using hmap
  rw [lookup, Option.or_eq_some_iff, hfound, h.file, List.findSome?_eq_some_iff,
    List.findSome?_eq_none_iff]

end History.Describes

/-! ### Scopes that are opened and closed -/

/-- How many of the scopes opened in a run are open behind it, given how many were in front; `none`
if the run closes a scope that it did not open. -/
def openedIn : Nat → List Op → Option Nat
  | n, [] => some n
  | n, .openScope :: ops => openedIn (n + 1) ops
  | 0, .closeScope :: _ => none
  | n + 1, .closeScope :: ops => openedIn n ops
  | _, .closeAll :: _ => none
  | n, .declare _ _ :: ops | n, .lookup _ :: ops => openedIn n ops

/-- The run closes just the scopes that it opens, one by one. -/
def IsBalanced (ops : List Op) : Prop := openedIn 0 ops = some 0

/-- Under an open scope a run works on the scopes that it opens and on this one. -/
theorem run_within (globals : Scope) (base : List Scope) {ops : List Op} :
    ∀ {n m : Nat} (inner : List Scope), openedIn n ops = some m → inner.length = n + 1 →
      ∃ inner', inner'.length = m + 1 ∧
        run ⟨globals, inner ++ base⟩ ops = ⟨globals, inner' ++ base⟩ := by
  induction ops with
  | nil =>
    intro n m inner h hlength
    obtain rfl : n = m := by simpa [openedIn] using h
    exact ⟨inner, hlength, rfl⟩
  | cons op ops ih =>
    intro n m inner h hlength
    obtain ⟨scope, inner, rfl⟩ := List.exists_cons_of_length_eq_add_one hlength
    cases op with
    | openScope => exact ih ([] :: scope :: inner) h (by simpa using hlength)
    | closeScope =>
      cases n with
      | zero => cases h
      | succ n => exact ih inner h (by simpa using hlength)
    | closeAll => cases n <;> cases h
    | lookup x =>
      rw [openedIn] at h
      exact ih (scope :: inner) h hlength
    | declare x symbol =>
      rw [openedIn] at h
      rw [run_cons, step]
      cases hresult : SymbolTable.declare ⟨globals, scope :: inner ++ base⟩ x symbol with
      | error cause =>
        rw [attempt_of_error hresult]
        exact ih (scope :: inner) h hlength
      | ok table' =>
        rw [attempt_of_ok hresult]
        obtain ⟨merged, hscopes, -⟩ | ⟨_, _, merged, hscopes, -, rfl⟩ := declare_ok hresult
        · cases hscopes
        · obtain ⟨rfl, rfl⟩ := List.cons.inj hscopes
          exact ih (scope.insert x merged :: inner) h hlength

/-- A scope and all that happens in it leave nothing behind. -/
theorem run_openScope_closeScope (table : SymbolTable) {ops : List Op} (h : IsBalanced ops) :
    table.run (.openScope :: (ops ++ [.closeScope])) = table := by
  obtain ⟨globals, scopes⟩ := table
  obtain ⟨inner, hlength, hrun⟩ := run_within globals scopes [[]] h rfl
  obtain ⟨scope, rfl⟩ := List.length_eq_one_iff.1 hlength
  rw [run_cons, run_append]
  change (run ⟨globals, [[]] ++ scopes⟩ ops).run [.closeScope] = _
  rw [hrun]
  rfl

end SymbolTable

/-! ### Names of the file -/

/-- All that later declarations can do to a name of the file: give a function its body. -/
def Symbol.Completes (old new : Symbol) : Prop :=
  new = old ∨ ∃ arity, old = .function arity false ∧ new = .function arity true

namespace Symbol.Completes

theorem trans {a b c : Symbol} (h : a.Completes b) (h' : b.Completes c) : a.Completes c := by
  rcases h with rfl | ⟨arity, rfl, rfl⟩
  · exact h'
  · rcases h' with rfl | ⟨_, hb, -⟩
    · exact .inr ⟨arity, rfl, rfl⟩
    · cases hb

theorem of_merge? {old symbol merged : Symbol} (h : merge? (some old) symbol = some merged) :
    old.Completes merged := by
  cases old with
  | stack | static => cases h
  | function arity defined =>
    cases symbol with
    | stack | static => cases h
    | function arity' defined' =>
      simp only [merge?, Option.ite_none_right_eq_some, Option.some.injEq] at h
      obtain ⟨⟨rfl, -⟩, rfl⟩ := h
      cases defined with
      | true => exact .inl rfl
      | false =>
        cases defined' with
        | true => exact .inr ⟨arity, rfl, rfl⟩
        | false => exact .inl rfl

end Symbol.Completes

namespace SymbolTable

theorem step_completes {table : SymbolTable} {x : String} {symbol : Symbol}
    (h : table.globals.get? x = some symbol) (op : Op) :
    ∃ new, (table.step op).globals.get? x = some new ∧ symbol.Completes new := by
  cases op with
  | openScope | closeScope | closeAll | lookup => exact ⟨symbol, h, .inl rfl⟩
  | declare y other =>
    rw [step]
    cases hresult : table.declare y other with
    | error cause =>
      rw [attempt_of_error hresult]
      exact ⟨symbol, h, .inl rfl⟩
    | ok table' =>
      rw [attempt_of_ok hresult]
      obtain ⟨merged, -, -, hmerge, rfl⟩ | ⟨scope, outer, merged, -, -, rfl⟩ := declare_ok hresult
      · by_cases hxy : y = x
        · subst hxy
          rw [h] at hmerge
          exact ⟨merged, by simp [Scope.get?_insert], .of_merge? hmerge⟩
        · exact ⟨symbol, by simp [Scope.get?_insert, hxy, h], .inl rfl⟩
      · exact ⟨symbol, h, .inl rfl⟩

/-- A name of the file stays what it is, and a function may get its body. -/
theorem run_completes {x : String} (ops : List Op) : ∀ {table : SymbolTable} {symbol : Symbol},
    table.globals.get? x = some symbol →
    ∃ new, (table.run ops).globals.get? x = some new ∧ symbol.Completes new := by
  induction ops with
  | nil => exact fun h => ⟨_, h, .inl rfl⟩
  | cons op ops ih =>
    intro table symbol h
    obtain ⟨mid, hmid, hstep⟩ := step_completes h op
    obtain ⟨new, hnew, hrun⟩ := ih hmid
    exact ⟨new, hnew, hstep.trans hrun⟩

/-! ### The rules -/

/-- The rules of a symbol table, behind a run in which these declarations succeeded. -/
structure ObeysRules (table : SymbolTable) (made : History) : Prop where
  /-- A declaration that is refused changes nothing. -/
  refused : ∀ x symbol cause, table.declare x symbol = .error cause →
    table.step (.declare x symbol) = table
  /-- A scope and all that happens in it leave nothing behind. -/
  restored : ∀ ops, IsBalanced ops → table.run (.openScope :: (ops ++ [.closeScope])) = table
  /-- A name is found in the innermost open scope in which it was declared, and else in the file. -/
  lookup : ∀ x symbol, table.lookup x = some symbol ↔
    (∃ inner decls outer, made.scopes = inner ++ decls :: outer ∧
      declaredAs decls x = some symbol ∧ ∀ other ∈ inner, declaredAs other x = none) ∨
    (∀ decls ∈ made.scopes, declaredAs decls x = none) ∧ declaredAs made.file x = some symbol
  /-- A name of the file stays what it is, and a function may get its body. -/
  completes : ∀ ops x symbol, table.globals.get? x = some symbol →
    ∃ new, (table.run ops).globals.get? x = some new ∧ symbol.Completes new
  /-- Of the declarations of a function in the file at most one has a body. -/
  bodies : ∀ x, (made.file.countP fun decl => decl.1 = x ∧ decl.2.bodies = 1) ≤ 1
  /-- The names of the file are none of the generated labels. -/
  names : ∀ x symbol, table.globals.get? x = some symbol → ∀ digits, digits ≠ [] →
    (∀ d ∈ digits, d.isDigit = true) → x.toList ≠ 'L' :: digits ∧ x.toList ≠ 'S' :: digits
  /-- The variables of the file are those declared in it, in order. -/
  statics : table.statics = staticsOf made.file

theorem ne_of_isGeneratedLabel {x : String} (h : isGeneratedLabel x = false) {c : Char}
    {digits : List Char} (hc : c = 'L' ∨ c = 'S') (hdigits : digits ≠ [])
    (hall : ∀ d ∈ digits, d.isDigit = true) : x.toList ≠ c :: digits := by
  intro hx
  have hlabel : isGeneratedLabel x = true := by
    simpa [isGeneratedLabel, hx, hdigits, hc] using hall
  rw [h] at hlabel
  cases hlabel

/-- The rules hold behind every run that begins with an empty table. -/
theorem run_obeysRules (ops : List Op) :
    ObeysRules (empty.run ops) (History.run empty {} ops) := by
  have hdescribes := History.Describes.empty.run ops
  exact
    { refused := fun x symbol cause h => by rw [step, attempt_of_error h]
      restored := fun inner h => run_openScope_closeScope _ h
      lookup := fun x symbol => hdescribes.lookup_eq_some_iff
      completes := fun later x symbol h => run_completes later h
      bodies := fun x => by
        rw [hdescribes.bodies]
        exact Scope.bodies_le_one _ x
      names := fun x symbol h digits hdigits hall =>
        ⟨ne_of_isGeneratedLabel (hdescribes.names x symbol h) (.inl rfl) hdigits hall,
          ne_of_isGeneratedLabel (hdescribes.names x symbol h) (.inr rfl) hdigits hall⟩
      statics := hdescribes.statics }

end SymbolTable

end WordC
