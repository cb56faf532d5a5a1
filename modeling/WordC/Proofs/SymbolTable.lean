import WordC.Proofs.Syntax
import WordC.SymbolTable

/-!
# What declarations do to the symbol table

A declaration changes the innermost scope and nothing else. The names of the file stay, and
functions collect their bodies there.

* `SymbolTable.declare_ok`: the two ways in which a declaration succeeds;
* `SymbolTable.attempt_of_error`: a declaration that is refused leaves the table as it was;
* `Scope.Grows`: the names of the file before and behind some declarations;
* `SymbolTable.Valid`: only locals are in the scopes, only globals are among the names of the file,
  and none of those looks like a generated label.
-/

namespace WordC

/-! ### Symbols -/

namespace Symbol

/-- Variables of the file and functions, which lie at labels. -/
def isGlobal : Symbol → Bool
  | .stack _ _ _ => false
  | .static _ _ | .function _ _ => true

/-- How many bodies of a function were seen. -/
def bodies : Symbol → Nat
  | .function _ true => 1
  | _ => 0

theorem bodies_le_one (symbol : Symbol) : symbol.bodies ≤ 1 := by
  unfold bodies
  split <;> omega

variable {old : Option Symbol} {symbol merged : Symbol}

theorem isGlobal_of_merge? (h : merge? old symbol = some merged) :
    merged.isGlobal = symbol.isGlobal := by
  unfold merge? at h
  split at h
  · cases h
    rfl
  · split at h
    · cases h
      rfl
    · cases h
  · cases h

theorem bodies_of_merge? (h : merge? old symbol = some merged) :
    merged.bodies = (old.map bodies).getD 0 + symbol.bodies := by
  unfold merge? at h
  split at h
  · cases h
    simp
  · rename_i arity defined arity' defined'
    split at h
    · rename_i hmay
      cases h
      -- two bodies are refused, so one of the two sides has none
      cases defined <;> cases defined' <;> simp_all [bodies]
    · cases h
  · cases h

/-- Only functions are declared twice. -/
theorem merge?_of_ne_function (h : merge? old symbol = some merged)
    (hne : ∀ arity defined, symbol ≠ .function arity defined) : old = none ∧ merged = symbol := by
  unfold merge? at h
  split at h
  · cases h
    exact ⟨rfl, rfl⟩
  · exact absurd rfl (hne _ _)
  · cases h

/-- A variable is only declared where the name is new. -/
theorem merge?_stack {offset : Int16} {ty : Ty} {constant : Bool}
    (h : merge? old (.stack offset ty constant) = some merged) :
    old = none ∧ merged = .stack offset ty constant :=
  merge?_of_ne_function h fun _ _ hf => by cases hf

/-- A function is without a body only if the last declaration was. -/
theorem eq_prototype_of_merge? {n : Nat} (h : merge? old symbol = some (.function n false)) :
    symbol = .function n false := by
  unfold merge? at h
  split at h
  · simpa using h
  · rename_i arity defined arity' defined'
    split at h
    · cases defined' <;> simp_all
    · cases h
  · cases h

end Symbol

/-! ### Scopes -/

namespace Scope

variable {scope : Scope}

/-- The names of a scope. -/
def names (scope : Scope) : List String := scope.map Prod.fst

/-- How many bodies a scope has for the function of a name. -/
def bodies (scope : Scope) (x : String) : Nat := ((scope.get? x).map Symbol.bodies).getD 0

theorem bodies_le_one (scope : Scope) (x : String) : scope.bodies x ≤ 1 := by
  unfold bodies
  cases scope.get? x with
  | none => simp
  | some symbol => exact symbol.bodies_le_one

theorem mem_of_get? {x : String} {symbol : Symbol} (h : scope.get? x = some symbol) :
    (x, symbol) ∈ scope := by
  induction scope with
  | nil => simp at h
  | cons entry rest ih =>
    rw [get?_cons] at h
    by_cases hx : entry.1 = x
    · rw [if_pos hx, Option.some.injEq] at h
      rw [← hx, ← h]
      exact List.mem_cons_self
    · rw [if_neg hx] at h
      exact List.mem_cons_of_mem _ (ih h)

/-- Where each name stands once, an entry is what its name stands for. -/
theorem get?_of_mem (hnodup : scope.names.Nodup) {x : String} {symbol : Symbol}
    (h : (x, symbol) ∈ scope) : scope.get? x = some symbol := by
  induction scope with
  | nil => cases h
  | cons entry rest ih =>
    rw [names, List.map_cons, List.nodup_cons] at hnodup
    rw [get?_cons]
    rcases List.mem_cons.1 h with rfl | hrest
    · exact if_pos rfl
    · have hne : entry.1 ≠ x := by
        rintro rfl
        exact hnodup.1 (List.mem_map.2 ⟨_, hrest, rfl⟩)
      rw [if_neg hne]
      exact ih hnodup.2 hrest

theorem names_insert (x : String) (symbol : Symbol) (scope : Scope) :
    (scope.insert x symbol).names =
      if x ∈ scope.names then scope.names else scope.names ++ [x] := by
  induction scope with
  | nil => simp [insert, names]
  | cons entry rest ih =>
    by_cases h : entry.1 = x
    · simp [insert, names, h]
    · have h' : x ≠ entry.1 := fun hx => h hx.symm
      rw [insert, if_neg h]
      have hrest :
          names (entry :: insert x symbol rest) = entry.1 :: names (insert x symbol rest) := rfl
      have hmem : x ∈ names (entry :: rest) ↔ x ∈ names rest := by simp [names, h']
      rw [hrest, ih]
      by_cases hx : x ∈ names rest
      · rw [if_pos hx, if_pos (hmem.2 hx)]
        rfl
      · rw [if_neg hx, if_neg (mt hmem.1 hx)]
        rfl

/-- A name that is new in a scope goes behind the others. -/
theorem insert_of_get? {x : String} (symbol : Symbol) (h : scope.get? x = none) :
    scope.insert x symbol = scope ++ [(x, symbol)] := by
  induction scope with
  | nil => rfl
  | cons entry rest ih =>
    rw [get?_cons] at h
    by_cases hx : entry.1 = x
    · rw [if_pos hx] at h
      cases h
    · rw [if_neg hx] at h
      rw [insert, if_neg hx, ih h, List.cons_append]

theorem nodup_names_insert (hnodup : scope.names.Nodup) (x : String) (symbol : Symbol) :
    (scope.insert x symbol).names.Nodup := by
  rw [names_insert]
  split
  · exact hnodup
  · rename_i hx
    refine List.nodup_append.2 ⟨hnodup, by simp, ?_⟩
    intro y hy z hz hyz
    rw [hyz, List.mem_singleton.1 hz] at hy
    exact hx hy

end Scope

/-- A name is declared among the contents. -/
def Contents.Declares (c : Contents) (x : String) : Prop :=
  x ∈ c.vars ∨ x ∈ c.prototypes ∨ x ∈ c.definitions

theorem Contents.declares_append {c d : Contents} {x : String} :
    (c ++ d).Declares x ↔ c.Declares x ∨ d.Declares x := by
  simp only [Declares, vars_append, prototypes_append, definitions_append, List.mem_append]
  grind

/-- The names of the file before and behind the declarations among the contents. -/
structure Scope.Grows (old : Scope) (c : Contents) (new : Scope) : Prop where
  kept : ∀ x, (old.get? x).isSome → (new.get? x).isSome
  declared : ∀ x, (new.get? x).isSome → (old.get? x).isSome ∨ c.Declares x
  bodies : ∀ x, new.bodies x = old.bodies x + c.definitions.count x
  prototypes : ∀ x n, new.get? x = some (.function n false) →
    (∃ m, old.get? x = some (.function m false)) ∨ x ∈ c.prototypes

namespace Scope.Grows

variable {old mid new scope : Scope} {c d : Contents}

theorem unchanged (h : c.definitions = []) : Grows scope c scope where
  kept _ hx := hx
  declared _ hx := .inl hx
  bodies x := by simp [h]
  prototypes _ n hx := .inl ⟨n, hx⟩

theorem trans (h : Grows old c mid) (h' : Grows mid d new) : Grows old (c ++ d) new where
  kept x hx := h'.kept x (h.kept x hx)
  declared x hx := by
    rw [Contents.declares_append]
    rcases h'.declared x hx with hmid | hd
    · exact (h.declared x hmid).imp_right .inl
    · exact .inr (.inr hd)
  bodies x := by
    rw [h'.bodies, h.bodies, Contents.definitions_append, List.count_append, Nat.add_assoc]
  prototypes x n hx := by
    rw [Contents.prototypes_append, List.mem_append]
    rcases h'.prototypes x n hx with ⟨m, hmid⟩ | hd
    · exact (h.prototypes x m hmid).imp_right .inl
    · exact .inr (.inr hd)

/-- One declaration. -/
theorem insert {x : String} {symbol merged : Symbol}
    (h : Symbol.merge? (scope.get? x) symbol = some merged) (hx : c.Declares x)
    (hbodies : ∀ y, c.definitions.count y = if x = y then symbol.bodies else 0)
    (hproto : ∀ n, symbol = .function n false → x ∈ c.prototypes) :
    Grows scope c (scope.insert x merged) where
  kept y hy := by
    rw [get?_insert]
    split
    · rfl
    · exact hy
  declared y hy := by
    rw [get?_insert] at hy
    split at hy
    · rename_i hxy
      exact .inr (hxy ▸ hx)
    · exact .inl hy
  bodies y := by
    rw [hbodies, Scope.bodies, get?_insert]
    split
    · rename_i hxy
      subst hxy
      simpa [Scope.bodies] using Symbol.bodies_of_merge? h
    · rfl
  prototypes y n hy := by
    rw [get?_insert] at hy
    split at hy
    · rename_i hxy
      cases hy
      exact .inr (hxy ▸ hproto n (Symbol.eq_prototype_of_merge? h))
    · exact .inl ⟨n, hy⟩

end Scope.Grows

/-! ### Declarations -/

/-- The names that stand for variables of the file or functions. -/
def SymbolTable.IsGlobalName (table : SymbolTable) (x : String) : Prop :=
  ∃ symbol, table.lookup x = some symbol ∧ symbol.isGlobal = true

namespace SymbolTable

variable {table table' : SymbolTable} {x : String} {symbol : Symbol} {depth : Nat}

/-- A declaration that is taken leaves the table that `declare` gives. -/
theorem attempt_of_ok (h : table.declare x symbol = .ok table') :
    table.attempt x symbol = (.ok (), table') := by
  rw [declare] at h
  split at h
  · cases h
    assumption
  · cases h

/-- A declaration that is refused leaves the table as it was. -/
theorem attempt_of_error {cause : Cause} (h : table.declare x symbol = .error cause) :
    table.attempt x symbol = (.error cause, table) := by
  rw [declare_eq] at h
  rw [attempt_eq]
  by_cases hreserved : (table.scopes.isEmpty && isGeneratedLabel x) = true
  · rw [if_pos hreserved] at h ⊢
    cases h
    rfl
  · rw [if_neg hreserved] at h ⊢
    cases hmerge : Symbol.merge? (table.current.get? x) symbol with
    | none =>
      rw [hmerge] at h
      cases h
      rfl
    | some merged =>
      rw [hmerge] at h
      cases h

/-- A declaration goes to the names of the file or to the innermost scope. -/
theorem declare_ok (h : table.declare x symbol = .ok table') :
    (∃ merged, table.scopes = [] ∧ isGeneratedLabel x = false ∧
      Symbol.merge? (table.globals.get? x) symbol = some merged ∧
      table' = ⟨table.globals.insert x merged, []⟩) ∨
    ∃ scope outer merged, table.scopes = scope :: outer ∧
      Symbol.merge? (scope.get? x) symbol = some merged ∧
      table' = ⟨table.globals, scope.insert x merged :: outer⟩ := by
  obtain ⟨globals, scopes⟩ := table
  rw [declare_eq] at h
  split at h
  · cases h
  · rename_i hreserved
    split at h
    · rename_i merged hmerge
      cases h
      cases scopes with
      | nil => exact .inl ⟨merged, rfl, by simpa using hreserved, hmerge, rfl⟩
      | cons scope outer => exact .inr ⟨scope, outer, merged, rfl, hmerge, rfl⟩
    · cases h

/-- With so many scopes open: locals are in the scopes and globals among the names of the file, and
none of those looks like a generated label. -/
structure Valid (table : SymbolTable) (depth : Nat) : Prop where
  length_scopes : table.scopes.length = depth
  locals : ∀ scope ∈ table.scopes, ∀ x symbol, scope.get? x = some symbol → symbol.isGlobal = false
  globals : ∀ x symbol, table.globals.get? x = some symbol →
    symbol.isGlobal = true ∧ isGeneratedLabel x = false
  nodup : table.globals.names.Nodup

namespace Valid

theorem empty : SymbolTable.empty.Valid 0 where
  length_scopes := rfl
  locals scope hscope := by cases hscope
  globals x symbol h := by cases h
  nodup := by simp [SymbolTable.empty, Scope.names]

theorem openScope (hv : table.Valid depth) : table.openScope.Valid (depth + 1) where
  length_scopes := by simp [SymbolTable.openScope, hv.length_scopes]
  locals scope hscope x symbol h := by
    rcases List.mem_cons.1 hscope with rfl | houter
    · simp at h
    · exact hv.locals scope houter x symbol h
  globals := hv.globals
  nodup := hv.nodup

theorem closeScope (hv : table.Valid (depth + 1)) : table.closeScope.Valid depth where
  length_scopes := by simp [SymbolTable.closeScope, hv.length_scopes]
  locals scope hscope := hv.locals scope (List.mem_of_mem_tail hscope)
  globals := hv.globals
  nodup := hv.nodup

theorem closeAll (hv : table.Valid depth) : table.closeAll.Valid 0 where
  length_scopes := rfl
  locals scope hscope := by cases hscope
  globals := hv.globals
  nodup := hv.nodup

/-- Inside a function a declaration leaves the names of the file as they are. -/
theorem globals_declare (hv : table.Valid (depth + 1)) (h : table.declare x symbol = .ok table') :
    table'.globals = table.globals := by
  obtain ⟨merged, hscopes, -⟩ | ⟨scope, outer, merged, -, -, rfl⟩ := declare_ok h
  · have hlength := hv.length_scopes
    simp [hscopes] at hlength
  · rfl

/-- Outside of functions a declaration adds to the names of the file. -/
theorem declare_file (hv : table.Valid 0) (h : table.declare x symbol = .ok table') :
    ∃ merged, isGeneratedLabel x = false ∧
      Symbol.merge? (table.globals.get? x) symbol = some merged ∧
      table' = ⟨table.globals.insert x merged, []⟩ := by
  obtain ⟨merged, -, hx, hmerge, rfl⟩ | ⟨scope, outer, merged, hscopes, -⟩ := declare_ok h
  · exact ⟨merged, hx, hmerge, rfl⟩
  · have hlength := hv.length_scopes
    simp [hscopes] at hlength

theorem declare (hv : table.Valid depth) (hkind : symbol.isGlobal = true ↔ depth = 0)
    (h : table.declare x symbol = .ok table') : table'.Valid depth := by
  obtain ⟨merged, hscopes, hx, hmerge, rfl⟩ | ⟨scope, outer, merged, hscopes, hmerge, rfl⟩ :=
    declare_ok h
  · -- without an open scope the name goes to the file, where it must not look generated
    have hdepth : depth = 0 := by rw [← hv.length_scopes, hscopes, List.length_nil]
    refine ⟨hdepth.symm, by simp, fun y other hy => ?_, Scope.nodup_names_insert hv.nodup x merged⟩
    rw [Scope.get?_insert] at hy
    split at hy
    · rename_i hxy
      cases hy
      rw [Symbol.isGlobal_of_merge? hmerge]
      exact ⟨hkind.2 hdepth, hxy ▸ hx⟩
    · exact hv.globals y other hy
  · have hlength := hv.length_scopes
    rw [hscopes, List.length_cons] at hlength
    refine ⟨hlength, fun scope' hscope y other hy => ?_, hv.globals, hv.nodup⟩
    rcases List.mem_cons.1 hscope with rfl | houter
    · rw [Scope.get?_insert] at hy
      split at hy
      · cases hy
        rw [Symbol.isGlobal_of_merge? hmerge, Bool.eq_false_iff]
        intro hglobal
        have hdepth := hkind.1 hglobal
        omega
      · exact hv.locals scope (by simp [hscopes]) y other hy
    · exact hv.locals scope' (by simp [hscopes, houter]) y other hy

/-- What stands for a variable of the file or a function is found among the names of the file. -/
theorem get?_globals (hv : table.Valid depth) (h : table.IsGlobalName x) :
    (table.globals.get? x).isSome ∧ isGeneratedLabel x = false := by
  obtain ⟨symbol, hlookup, hglobal⟩ := h
  rw [lookup, Option.or_eq_some_iff] at hlookup
  rcases hlookup with hlocal | ⟨-, hfile⟩
  · obtain ⟨scope, hscope, hx⟩ := List.exists_of_findSome?_eq_some hlocal
    rw [hv.locals scope hscope x symbol hx] at hglobal
    cases hglobal
  · exact ⟨by rw [hfile]; rfl, (hv.globals x symbol hfile).2⟩

end Valid

end SymbolTable

end WordC
