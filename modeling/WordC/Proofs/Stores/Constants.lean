import WordC.Proofs.Frame.Layout

/-!
# Stores to constants

A constant is stored to by the initializer of its declaration and by no other line. Assignments are
refused for what the table gives as a constant, and no two variables of the file, or of a function,
are at one address.

* `SymbolTable.Guards`: all that is at an address, in all scopes, is constant;
* `Lowers.count_stores`: as long as this holds, each store to the address is that of an initializer;
* `AreApart`: no two variables are at one address, so that there is at most one such initializer;
* `StoredByInit`: what this says about a declaration and the lines around it;
* `compile_storedByInit`: so it is for each constant of a source that compiles.
-/

namespace WordC
open Lowering

/-! ### Addresses in the symbol table -/

/-- All that stands for something, in the file and in the open scopes. -/
def SymbolTable.entries (table : SymbolTable) : List (String × Symbol) :=
  table.globals ++ table.scopes.flatten

/-- All that is at an address is constant. -/
def SymbolTable.Guards (table : SymbolTable) (address : Address) : Prop :=
  ∀ x symbol, (x, symbol) ∈ table.entries → storeAddress? x symbol = some address →
    symbol.isConstant = true

theorem Scope.mem_insert {scope : Scope} {x y : String} {symbol other : Symbol}
    (h : (y, other) ∈ scope.insert x symbol) : y = x ∧ other = symbol ∨ (y, other) ∈ scope := by
  induction scope with
  | nil => exact .inl (Prod.mk.inj (List.mem_singleton.1 h))
  | cons entry rest ih =>
    rw [insert] at h
    split at h
    · rcases List.mem_cons.1 h with hnew | hrest
      · exact .inl (Prod.mk.inj hnew)
      · exact .inr (List.mem_cons_of_mem _ hrest)
    · rcases List.mem_cons.1 h with rfl | hrest
      · exact .inr List.mem_cons_self
      · exact (ih hrest).imp_right (List.mem_cons_of_mem _)

/-- A declaration that is taken makes the name stand for what is declared, or for a function. -/
theorem Symbol.eq_or_function_of_merge? {old : Option Symbol} {symbol merged : Symbol}
    (h : merge? old symbol = some merged) :
    merged = symbol ∨ ∃ arity defined, merged = .function arity defined := by
  unfold merge? at h
  split at h
  · cases h
    exact .inl rfl
  · split at h
    · cases h
      exact .inr ⟨_, _, rfl⟩
    · cases h
  · cases h

namespace SymbolTable

variable {table table' : SymbolTable} {x : String} {symbol : Symbol} {address : Address}

theorem mem_entries_of_lookup (h : table.lookup x = some symbol) : (x, symbol) ∈ table.entries := by
  rw [lookup, Option.or_eq_some_iff] at h
  rw [entries, List.mem_append, List.mem_flatten]
  rcases h with hlocal | ⟨-, hfile⟩
  · obtain ⟨scope, hscope, hx⟩ := List.exists_of_findSome?_eq_some hlocal
    exact .inr ⟨scope, hscope, Scope.mem_of_get? hx⟩
  · exact .inl (Scope.mem_of_get? hfile)

theorem mem_entries_of_declare (h : table.declare x symbol = .ok table') {y : String}
    {other : Symbol} (hmem : (y, other) ∈ table'.entries) :
    (y, other) ∈ table.entries ∨ y = x ∧ ∃ old, Symbol.merge? old symbol = some other := by
  obtain ⟨merged, hscopes, -, hmerge, rfl⟩ | ⟨scope, outer, merged, hscopes, hmerge, rfl⟩ :=
    declare_ok h
  · simp only [entries, List.flatten_nil, List.append_nil, hscopes] at hmem ⊢
    rcases Scope.mem_insert hmem with ⟨rfl, rfl⟩ | hold
    · exact .inr ⟨rfl, _, hmerge⟩
    · exact .inl hold
  · simp only [entries, List.flatten_cons, List.mem_append, hscopes] at hmem ⊢
    rcases hmem with hfile | hnew | houter
    · exact .inl (.inl hfile)
    · rcases Scope.mem_insert hnew with ⟨rfl, rfl⟩ | hold
      · exact .inr ⟨rfl, _, hmerge⟩
      · exact .inl (.inr (.inl hold))
    · exact .inl (.inr (.inr houter))

namespace Guards

theorem empty (address : Address) : SymbolTable.empty.Guards address := by
  intro x symbol hmem
  cases hmem

theorem openScope (h : table.Guards address) : table.openScope.Guards address := h

theorem closeScope (h : table.Guards address) : table.closeScope.Guards address := by
  intro x symbol hmem
  refine h x symbol ?_
  simp only [entries, SymbolTable.closeScope, List.mem_append, List.mem_flatten] at hmem ⊢
  rcases hmem with hfile | ⟨scope, hscope, hx⟩
  · exact .inl hfile
  · exact .inr ⟨scope, List.mem_of_mem_tail hscope, hx⟩

theorem closeAll (h : table.Guards address) : table.closeAll.Guards address := by
  intro x symbol hmem
  refine h x symbol (List.mem_append_left _ ?_)
  simpa [entries, SymbolTable.closeAll] using hmem

/-- A declaration keeps it if what it declares is elsewhere or constant. -/
theorem declare (h : table.Guards address) (ht : table.declare x symbol = .ok table')
    (hx : storeAddress? x symbol = some address → symbol.isConstant = true) :
    table'.Guards address := by
  intro y other hmem haddress
  rcases mem_entries_of_declare ht hmem with hold | ⟨rfl, old, hmerge⟩
  · exact h y other hold haddress
  · rcases Symbol.eq_or_function_of_merge? hmerge with rfl | ⟨arity, defined, rfl⟩
    · exact hx haddress
    · cases haddress

/-- Outside of functions nothing is in a frame. -/
theorem of_valid (h : table.Valid 0) (offset : Int16) : table.Guards (.frame offset) := by
  intro x symbol hmem haddress
  have hscopes : table.scopes = [] := List.length_eq_zero_iff.1 h.length_scopes
  have hget := Scope.get?_of_mem h.nodup (by simpa [entries, hscopes] using hmem)
  have hglobal := (h.globals x symbol hget).1
  cases symbol with
  | stack => cases hglobal
  | static => simp [storeAddress?] at haddress
  | function => cases haddress

/-- No expression stores there. -/
theorem notMem_storesOf (h : table.Guards address) (hdirect : ∀ r, address ≠ .register r)
    {e : Expr} {s : Scratch} {a : Emission Scratch Register} (ha : lowerExpr table e s = .ok a) :
    address ∉ storesOf a.lines := by
  intro hmem
  rcases lowerExpr_storesTo e ha address hmem with ⟨r, hr⟩ | ⟨x, symbol, hx, hconstant, haddress⟩
  · exact hdirect r hr
  · rw [h x symbol (mem_entries_of_lookup hx) haddress] at hconstant
    cases hconstant

end Guards

end SymbolTable

/-! ### Stores along the lowering of statements -/

/-- Variables can be at the address as far as this session goes: at labels, and inside a function at
places of its frame. -/
def Session.Reaches (s : Session) : Address → Prop
  | .label _ => True
  | .frame _ => s.frame ≠ none
  | .register _ => False

theorem Session.Reaches.ne_register {s : Session} {address : Address} (h : s.Reaches address)
    (r : Register) : address ≠ .register r := by
  rintro rfl
  exact h

theorem Session.Reaches.of_frame {s t : Session} {address : Address} (h : s.Reaches address)
    (hframe : t.frame = none ↔ s.frame = none) : t.Reaches address := by
  cases address with
  | label x => trivial
  | frame offset => exact mt hframe.1 h
  | register r => exact h

/-- Outside of functions it is at a label. -/
theorem Session.Reaches.exists_label {s : Session} {address : Address} (h : s.Reaches address)
    (hf : s.frame = none) : ∃ x, address = .label x := by
  cases address with
  | label x => exact ⟨x, rfl⟩
  | frame offset => exact absurd hf h
  | register r => exact h.elim

/-- Is the initial value of a variable stored at the address? -/
def isInitAt (address : Address) (var : Variable × Symbol) : Bool :=
  var.1.init.isSome && storeAddress? var.1.name var.2 == some address

namespace Lowering

variable {address : Address}

/-- Parameters are not constant, so they have to be elsewhere. -/
theorem declareParams_guards {pos : Position} {function : String} :
    ∀ {params : List Param} {s : Session} {em : Emission Session Unit},
    declareParams pos function params s = .ok em → s.symbols.Guards address →
    (∀ i < params.length, ∀ offset : Int16, offset.toInt = paramPlace params.length i →
      address ≠ .frame offset) → em.state.symbols.Guards address
  | [], _, _, h, hs, _ => by
    rw [declareParams_nil_ok h]
    exact hs
  | param :: params, s, _, h, hs, hne => by
    obtain ⟨offset, table, ho, ht, h⟩ := declareParams_cons_ok h
    have hfirst := hne 0 (Nat.zero_lt_succ _) offset (toInt_paramOffset?_eq ho)
    refine declareParams_guards h (hs.declare ht fun haddress => ?_) fun i hi o hoffset => ?_
    · simp only [storeAddress?, Option.ite_none_left_eq_some, Option.some.injEq] at haddress
      exact absurd haddress.2.symm hfirst
    · refine hne (i + 1) (Nat.succ_lt_succ hi) o ?_
      rw [hoffset, List.length_cons, paramPlace_succ]

/-- The lines around the body of a function store nothing. -/
theorem storesOf_function {name : String} {reserve : List Instruction} {lines : List Line}
    (hreserve : reserve = [] ∨ ∃ bytes, reserve = reservation bytes) :
    storesOf ([.label name] ++ ((prologue ++ reserve).map .instruction ++ (lines ++
      epilogue.map .instruction))) = storesOf lines := by
  have hentry : storesOf ((prologue ++ reserve).map .instruction) = [] := by
    rcases hreserve with rfl | ⟨bytes, rfl⟩ <;> rfl
  have hlabel : storesOf [.label name] = [] := rfl
  have hexit : storesOf (epilogue.map .instruction) = [] := rfl
  simp only [storesOf_append, hentry, hlabel, hexit, List.nil_append, List.append_nil]

end Lowering

/-- A variable of the frame is at no label. -/
theorem isInitAt_stack {x : String} {decl : Variable} {offset : Int16} {ty : Ty} {constant : Bool} :
    isInitAt (.label x) (decl, .stack offset ty constant) = false := by
  cases hty : ty.isArray <;> simp [isInitAt, storeAddress?, hty]

/-- A declaration stores to the address if the variable is there and has an initial value. -/
theorem Lowering.lowerVariable_count_stores {s : Session} {pos : Position} {decl : Variable}
    {symbol : Symbol} {em : Emission Session Unit} {address : Address}
    (h : lowerVariable pos decl s = .ok em)
    (hsymbol : em.state.symbols.current.get? decl.name = some symbol) (hreach : s.Reaches address)
    (hs : s.symbols.Guards address)
    (hconstant : storeAddress? decl.name symbol = some address → decl.constant = true) :
    (storesOf em.lines).count address = [(decl, symbol)].countP (isInitAt address) ∧
      em.state.symbols.Guards address := by
  obtain ⟨scratch, p, hp, ht, hlines⟩ := lowerVariable_ok h
  obtain rfl : symbol = p.value := Option.some.inj (hsymbol.symm.trans (declare_place hp ht).2)
  have hvalue : p.value.isConstant = decl.constant := by
    rcases place_value hp with ⟨-, hstatic⟩ | ⟨-, offset, hstack⟩
    · rw [hstatic, Symbol.isConstant]
    · rw [hstack, Symbol.isConstant]
  constructor
  · rcases hlines with ⟨hinit, hlines⟩ | ⟨init, a, place, hinit, ha, hplace, hlines⟩
    · simp [hlines, storesOf, isInitAt, hinit]
    · have hzero := List.count_eq_zero.2 (hs.notMem_storesOf hreach.ne_register ha)
      have hstore : storesOf [.instruction (.mov place a.value)] = [place] := rfl
      rw [hlines, storesOf_append, List.count_append, hzero, hstore, Nat.zero_add]
      simp [isInitAt, hinit, hplace, List.count_singleton, List.countP_singleton]
  · exact hs.declare ht fun haddress => hvalue.trans (hconstant haddress)

/-- While all that is at an address is constant, each store there is that of an initializer. -/
theorem Lowers.count_stores {s t : Session} {lines : List Line} {vars : List (Variable × Symbol)}
    {address : Address} (h : Lowers s lines vars t) : s.Reaches address →
    s.symbols.Guards address →
    (∀ decl symbol, (decl, symbol) ∈ vars → storeAddress? decl.name symbol = some address →
      decl.constant = true) →
    (storesOf lines).count address = vars.countP (isInitAt address) ∧
      t.symbols.Guards address := by
  induction h with
  | code s n h =>
    intro _ hs _
    rw [storesOf_of_isBare h]
    exact ⟨rfl, hs⟩
  | expr h =>
    intro hreach hs _
    exact ⟨List.count_eq_zero.2 (hs.notMem_storesOf hreach.ne_register h), hs⟩
  | @var s pos decl symbol em h hsymbol =>
    intro hreach hs hvars
    exact lowerVariable_count_stores h hsymbol hreach hs (hvars decl symbol List.mem_cons_self)
  | prototype hf ht =>
    intro _ hs _
    exact ⟨rfl, hs.declare ht fun haddress => by cases haddress⟩
  | append h h' ih ih' =>
    intro hreach hs hvars
    obtain ⟨hcount, hmid⟩ := ih hreach hs fun decl symbol hmem =>
      hvars decl symbol (List.mem_append_left _ hmem)
    obtain ⟨hcount', hend⟩ := ih' (hreach.of_frame h.frame) hmid fun decl symbol hmem =>
      hvars decl symbol (List.mem_append_right _ hmem)
    rw [storesOf_append, List.count_append, List.countP_append, hcount, hcount']
    exact ⟨rfl, hend⟩
  | block hf h ih =>
    intro hreach hs hvars
    obtain ⟨hcount, hend⟩ := ih hreach hs.openScope hvars
    exact ⟨hcount, hend.closeScope⟩
  | @function s t pos head table p reserve lines locals hf ht hp hreserve h ih =>
    intro hreach hs _
    -- a definition is met outside of functions only, where the address is a label
    obtain ⟨x, rfl⟩ := hreach.exists_label hf
    obtain ⟨-, -, hframe⟩ := declareParams_ok hp
    have hinside : p.state.frame ≠ none := by simp [hframe]
    have htable := hs.declare ht fun haddress => by cases haddress
    have hentry := declareParams_guards hp htable.openScope fun _ _ _ _ hlabel => by cases hlabel
    obtain ⟨hcount, hend⟩ := ih trivial hentry fun decl symbol hmem haddress => by
      obtain ⟨offset, rfl⟩ := h.symbol_frame hinside hmem
      simp [storeAddress?] at haddress
    refine ⟨?_, hend.closeAll⟩
    rw [storesOf_function hreserve, hcount, List.countP_nil, List.countP_eq_zero]
    rintro ⟨decl, symbol⟩ hmem
    obtain ⟨offset, rfl⟩ := h.symbol_frame hinside hmem
    simp [isInitAt_stack]

/-! ### Variables apart from each other -/

/-- Two variables are not at one address. -/
def IsApartFrom (var var' : Variable × Symbol) : Prop :=
  ∀ address, storeAddress? var.1.name var.2 = some address →
    storeAddress? var'.1.name var'.2 ≠ some address

instance : Std.Symm IsApartFrom := ⟨fun _ _ h address haddress hsame => h address hsame haddress⟩

/-- No two of the variables are at one address. -/
def AreApart (vars : List (Variable × Symbol)) : Prop := vars.Pairwise IsApartFrom

namespace AreApart

variable {vars : List (Variable × Symbol)} {var var' : Variable × Symbol} {address : Address}

theorem eq_of_mem (h : AreApart vars) (hvar : var ∈ vars) (hvar' : var' ∈ vars)
    (haddress : storeAddress? var.1.name var.2 = some address)
    (haddress' : storeAddress? var'.1.name var'.2 = some address) : var = var' := by
  by_contra hne
  exact List.Pairwise.forall h hvar hvar' hne address haddress haddress'

/-- At the address of a variable at most its own initial value is stored. -/
theorem countP_isInitAt (h : AreApart vars) (hvar : var ∈ vars)
    (haddress : storeAddress? var.1.name var.2 = some address) :
    vars.countP (isInitAt address) = if var.1.init.isSome then 1 else 0 := by
  obtain ⟨before, after, rfl⟩ := List.append_of_mem hvar
  obtain ⟨-, hafter, hbefore⟩ := List.pairwise_append.1 h
  rw [List.pairwise_cons] at hafter
  have hzero : before.countP (isInitAt address) = 0 := by
    refine List.countP_eq_zero.2 fun other hother => ?_
    have hne := hbefore other hother var List.mem_cons_self address
    simp only [isInitAt, Bool.and_eq_true, beq_iff_eq, not_and]
    exact fun _ hsame => hne hsame haddress
  have hzero' : after.countP (isInitAt address) = 0 := by
    refine List.countP_eq_zero.2 fun other hother => ?_
    simp only [isInitAt, Bool.and_eq_true, beq_iff_eq, not_and]
    exact fun _ => hafter.1 other hother address haddress
  rw [List.countP_append, List.countP_cons, hzero, hzero', Nat.zero_add, Nat.zero_add]
  simp [isInitAt, haddress]

end AreApart

/-- The variables of the file have different names, which were new. -/
theorem Lowers.nodup_names {s t : Session} {lines : List Line} {vars : List (Variable × Symbol)}
    (h : Lowers s lines vars t) : s.Valid 0 →
    (vars.map fun var => var.1.name).Nodup ∧
      ∀ x ∈ vars.map fun var => var.1.name, s.symbols.globals.get? x = none ∧
        (t.symbols.globals.get? x).isSome = true := by
  induction h with
  | code | expr | prototype | function =>
    exact fun _ => ⟨List.nodup_nil, fun _ hx => absurd hx List.not_mem_nil⟩
  | @var s pos decl symbol em h hsymbol =>
    intro hs
    obtain ⟨scratch, p, hp, ht, -⟩ := lowerVariable_ok h
    obtain ⟨hnew, -⟩ := declare_place hp ht
    have hscopes : s.symbols.scopes = [] := List.length_eq_zero_iff.1 hs.symbols.length_scopes
    obtain ⟨merged, -, -, htable⟩ := hs.symbols.declare_file ht
    refine ⟨List.nodup_singleton _, fun x hx => ?_⟩
    obtain rfl : x = decl.name := List.mem_singleton.1 hx
    refine ⟨by simpa [SymbolTable.current, hscopes] using hnew, ?_⟩
    rw [htable, Scope.get?_insert, if_pos rfl]
    rfl
  | append h h' ih ih' =>
    intro hs
    obtain ⟨c, hc⟩ := h.emits
    obtain ⟨c', hc'⟩ := h'.emits
    have hkept := (hc.grows hs).kept
    have hkept' := (hc'.grows (hc.valid hs)).kept
    obtain ⟨hnodup, hnames⟩ := ih hs
    obtain ⟨hnodup', hnames'⟩ := ih' (hc.valid hs)
    rw [List.map_append]
    refine ⟨List.nodup_append.2 ⟨hnodup, hnodup', ?_⟩, fun x hx => ?_⟩
    · -- what the first statements declare is known to the second
      rintro x hx _ hx' rfl
      have hsome := (hnames x hx).2
      rw [(hnames' x hx').1] at hsome
      cases hsome
    · rcases List.mem_append.1 hx with hx | hx
      · exact ⟨(hnames x hx).1, hkept' x (hnames x hx).2⟩
      · refine ⟨?_, (hnames' x hx).2⟩
        rw [← Option.not_isSome_iff_eq_none]
        exact mt (hkept x) (by simp [(hnames' x hx).1])
  | block hf h ih =>
    intro hs
    rw [hs.frame.2 rfl] at hf
    cases hf

theorem Lowers.areApart_file {s t : Session} {lines : List Line} {vars : List (Variable × Symbol)}
    (h : Lowers s lines vars t) (hs : s.Valid 0) : AreApart vars := by
  have hlabel : ∀ decl symbol, (decl, symbol) ∈ vars → ∀ address,
      storeAddress? decl.name symbol = some address → address = .label decl.name := by
    intro decl symbol hmem address haddress
    obtain rfl := h.symbol_file (hs.frame.2 rfl) hmem
    simp only [storeAddress?, Option.ite_none_left_eq_some, Option.some.injEq] at haddress
    exact haddress.2.symm
  have hnodup := List.pairwise_map.1 (h.nodup_names hs).1
  refine hnodup.imp_of_mem fun {var var'} hvar hvar' hne address haddress haddress' => ?_
  have hsame := hlabel _ _ hvar address haddress
  rw [hlabel _ _ hvar' address haddress', Address.label.injEq] at hsame
  exact hne hsame.symm

/-- Later variables of a function are below earlier ones. -/
theorem localPlace_lt {decls : List Variable} {i j : Nat} (hij : i < j) (hj : j < decls.length) :
    localPlace decls j < localPlace decls i := by
  have hmono : wordsOf (decls.take (i + 1)) ≤ wordsOf (decls.take j) := wordsOf_take_mono decls hij
  have hone := decls[j].ty.one_le_words
  have hsucc := wordsOf_take_succ hj
  simp only [localPlace, wordBytes]
  omega

theorem areApart_locals {locals : List (Variable × Symbol)} {decls : List Variable}
    (hdecls : locals.map Prod.fst = decls)
    (hplaces : ∀ j decl symbol, locals[j]? = some (decl, symbol) → ∃ offset : Int16,
      symbol = .stack offset decl.ty decl.constant ∧ offset.toInt = localPlace decls j) :
    AreApart locals := by
  refine List.pairwise_iff_getElem.2 fun i j hi hj hij address haddress haddress' => ?_
  obtain ⟨offset, hsymbol, hoffset⟩ :=
    hplaces i locals[i].1 locals[i].2 (List.getElem?_eq_getElem hi)
  obtain ⟨offset', hsymbol', hoffset'⟩ :=
    hplaces j locals[j].1 locals[j].2 (List.getElem?_eq_getElem hj)
  rw [hsymbol] at haddress
  rw [hsymbol'] at haddress'
  simp only [storeAddress?, Option.ite_none_left_eq_some, Option.some.injEq] at haddress haddress'
  have hsame : offset = offset' := Address.frame.inj (haddress.2.trans haddress'.2.symm)
  have hlt : localPlace decls j < localPlace decls i :=
    localPlace_lt hij (by simpa [← hdecls] using hj)
  rw [← hoffset, ← hoffset', hsame] at hlt
  exact absurd hlt (Int.lt_irrefl _)

/-! ### Constants -/

/-- Lowering the statements comes to the declaration of the variable, which puts it at the address.
The lines store there once if it has an initial value, by the line that is emitted for it, and else
never. -/
structure StoredByInit (start : Session) (items : List Stmt) (decl : Variable) (address : Address)
    (lines : List Line) : Prop where
  count : (storesOf lines).count address = if decl.init.isSome then 1 else 0
  declared : ∃ pos s em symbol, Visits start items s (.var pos decl) ∧
    lowerStmt (.var pos decl) s = .ok em ∧ em.lines <:+: lines ∧
    em.state.symbols.lookup decl.name = some symbol ∧
    storeAddress? decl.name symbol = some address ∧
    ∀ init, decl.init = some init → ∃ a, lowerExpr s.symbols init s.scratch = .ok a ∧
      em.lines = a.lines ++ [.instruction (.mov address a.value)]

theorem StoredByInit.extend {start : Session} {items : List Stmt} {decl : Variable}
    {address : Address} {lines before after : List Line}
    (h : StoredByInit start items decl address lines) (hbefore : storesOf before = [])
    (hafter : storesOf after = []) :
    StoredByInit start items decl address (before ++ (lines ++ after)) where
  count := by simp [hbefore, hafter, h.count]
  declared := by
    obtain ⟨pos, s, em, symbol, hvisit, hem, hlines, hsymbol⟩ := h.declared
    have hall : lines <:+: before ++ (lines ++ after) := ⟨before, after, by simp⟩
    exact ⟨pos, s, em, symbol, hvisit, hem, hlines.trans hall, hsymbol⟩

/-- Variables that are apart from each other are stored to by their initializers only, if they are
constant. -/
theorem Lowers.storedByInit {s t : Session} {lines : List Line} {vars : List (Variable × Symbol)}
    (h : Lowers s lines vars t) (hapart : AreApart vars) {decl : Variable} {symbol : Symbol}
    {address : Address} (hmem : (decl, symbol) ∈ vars) (hconstant : decl.constant = true)
    (haddress : storeAddress? decl.name symbol = some address) (hreach : s.Reaches address)
    (hs : s.symbols.Guards address) {start : Session} {items : List Stmt}
    (hdeclared : DeclaredIn (Visits start items) lines (decl, symbol)) :
    StoredByInit start items decl address lines where
  count := by
    obtain ⟨hcount, -⟩ := h.count_stores hreach hs fun decl' symbol' hmem' haddress' => by
      have hsame := hapart.eq_of_mem hmem hmem' haddress haddress'
      rw [← (Prod.mk.inj hsame).1]
      exact hconstant
    rw [hcount, hapart.countP_isInitAt hmem haddress]
  declared := by
    obtain ⟨pos, s', em, hvisit, hem, hsymbol, hlines⟩ := hdeclared
    refine ⟨pos, s', em, symbol, hvisit, hem, hlines, SymbolTable.lookup_of_current hsymbol,
      haddress, fun init hsome => ?_⟩
    rw [lowerStmt, Emitter.visit_apply] at hem
    obtain ⟨scratch, p, hp, ht, hinit⟩ := lowerVariable_ok hem
    obtain rfl : symbol = p.value := Option.some.inj (hsymbol.symm.trans (declare_place hp ht).2)
    rcases hinit with ⟨hnone, -⟩ | ⟨init', a, place, hsome', ha, hplace, hcode⟩
    · rw [hnone] at hsome
      cases hsome
    · rw [hsome, Option.some.injEq] at hsome'
      rw [haddress, Option.some.injEq] at hplace
      subst hsome' hplace
      exact ⟨a, ha, hcode⟩

namespace Lowering

/-- Each constant of a function is stored to by its initializer only. -/
theorem lowerStmt_storedByInit {pos : Position} {head : Signature} {body : Stmt} {s : Session}
    {em : Emission Session Unit} (h : lowerStmt (.function pos head body) s = .ok em)
    (hs : s.Valid 0) {j : Nat} {decl : Variable} (hj : body.decls[j]? = some decl)
    (hconstant : decl.constant = true) (hscalar : decl.ty.isArray = false) :
    ∃ offset : Int16, offset.toInt = localPlace body.decls j ∧
      StoredByInit s [.function pos head body] decl (.frame offset) em.lines := by
  rw [lowerStmt_function_apply] at h
  obtain ⟨hf, table, p, b, r, ht, hp, hb, hr, rfl⟩ := lowerFunction_run h
  obtain ⟨-, -, locals, hdeclared, hlowers, -, hdecls, hplaces⟩ := lowerItems_places hp hb
  obtain ⟨-, -, hframe⟩ := declareParams_ok (enterFunction_ok hp)
  obtain ⟨hreserve, -, -⟩ := leaveFunction_ok hr
  obtain ⟨⟨decl, symbol⟩, hlocal, rfl⟩ : ∃ var, locals[j]? = some var ∧ var.1 = decl := by
    rw [← hdecls, List.getElem?_map] at hj
    simpa using hj
  obtain ⟨offset, rfl, hoffset⟩ := hplaces j _ symbol hlocal
  have hbelow := (localPlace_mem (List.getElem?_eq_some_iff.1 hj).1).2
  refine ⟨offset, hoffset, ?_⟩
  have hvalid := hs.symbols.declare (by simp [functionSymbol, Symbol.isGlobal]) ht
  have houtside := SymbolTable.Guards.of_valid hvalid offset
  have hentry : p.state.symbols.Guards (.frame offset) := by
    refine declareParams_guards (enterFunction_ok hp) houtside.openScope ?_
    -- the parameters are above the frame pointer
    rintro i hi o ho hsame
    obtain rfl := Address.frame.inj hsame
    have habove := (paramPlace_mem hi).1
    omega
  have hmem := List.mem_of_getElem? hlocal
  have hvisited : DeclaredIn (Visits s [.function pos head body]) b.lines (decl, _) :=
    (hdeclared _ hmem).mono (fun hvisit => .inside (.function hf ht hp) hvisit)
      (List.suffix_refl _).isInfix
  have hbody := hlowers.storedByInit (areApart_locals hdecls hplaces) hmem hconstant
    (by simp [storeAddress?, hscalar])
    (show p.state.Reaches (.frame offset) from by simp [Session.Reaches, hframe]) hentry hvisited
  have hfront : storesOf ([.label head.name] ++ (prologue ++ r.value).map .instruction) = [] := by
    rcases hreserve with hnone | ⟨bytes, hbytes⟩
    · rw [hnone]
      rfl
    · rw [hbytes]
      rfl
  have hall := hbody.extend hfront (show storesOf (epilogue.map .instruction) = [] from rfl)
  rwa [List.append_assoc] at hall

/-- The data behind the code stores nothing. -/
theorem storesOf_dataLines (s : Session) : storesOf (dataLines s) = [] := by
  have hstatics : storesOf (staticLines s.symbols) = [] := by
    refine List.filterMap_eq_nil_iff.2 fun line hline => ?_
    simp only [staticLines, List.mem_flatMap] at hline
    obtain ⟨var, -, hline⟩ := hline
    simp only [List.mem_cons, List.not_mem_nil, or_false] at hline
    rcases hline with rfl | rfl <;> rfl
  have hstrings : ∀ (texts : List String) n, storesOf (stringLines n texts) = [] := by
    intro texts
    induction texts with
    | nil => exact fun n => rfl
    | cons text texts ih => exact fun n => ih (n + 1)
  rw [dataLines, storesOf_append, hstatics, hstrings, List.append_nil]

/-- Each constant of the file is stored to by its initializer only. -/
theorem lowerItems_storedByInit {program : Program} {e : Emission Session Unit}
    (h : lowerItems program .empty = .ok e) {decl : Variable}
    (hdecl : decl ∈ Stmt.outerDeclsOfAll program) (hconstant : decl.constant = true)
    (hscalar : decl.ty.isArray = false) :
    StoredByInit .empty program decl (.label decl.name) (e.lines ++ dataLines e.state) := by
  obtain ⟨vars, hdecls, hdeclared, hrun⟩ := lowerItems_lowers h
  rw [← hdecls, List.mem_map] at hdecl
  obtain ⟨⟨decl, symbol⟩, hmem, rfl⟩ := hdecl
  obtain rfl := hrun.symbol_file rfl hmem
  have haddress : storeAddress? decl.name (.static decl.ty decl.constant) =
      some (.label decl.name) := if_neg (by simp [hscalar])
  have hcode := hrun.storedByInit (hrun.areApart_file .empty) hmem hconstant haddress trivial
    (.empty _) (hdeclared _ hmem)
  exact hcode.extend (show storesOf [] = [] from rfl) (storesOf_dataLines e.state)

end Lowering

/-- In a source that compiles the constants of the file are stored to by their initializers only,
and in each function so are the constants of the function. -/
theorem compile_storedByInit {file source : String} {listing : Listing}
    (h : compile file source = .ok listing) :
    ∃ tokens program, Token.ofSource file source = .ok tokens ∧
      Program.ofTokens tokens = .ok program ∧
      (∀ decl ∈ Stmt.outerDeclsOfAll program, decl.constant = true → decl.ty.isArray = false →
        StoredByInit .empty program decl (.label decl.name) listing.lines) ∧
      ∀ pos head body, .function pos head body ∈ Stmt.functionsOfAll program →
        ∃ s em, Visits .empty program s (.function pos head body) ∧
          lowerStmt (.function pos head body) s = .ok em ∧ em.lines <:+: listing.lines ∧
          ∀ j decl, body.decls[j]? = some decl → decl.constant = true →
            decl.ty.isArray = false → ∃ offset : Int16, offset.toInt = localPlace body.decls j ∧
              StoredByInit s [.function pos head body] decl (.frame offset) em.lines := by
  obtain ⟨tokens, program, htokens, hprogram, h⟩ := compile_eq_ok_iff.1 h
  obtain ⟨e, he, rfl⟩ := Listing.ofProgram_ok h
  refine ⟨tokens, program, htokens, hprogram, fun decl hdecl hconstant hscalar =>
    lowerItems_storedByInit he hdecl hconstant hscalar, fun pos head body hf => ?_⟩
  obtain ⟨s, em, hvisit, hs, hem, hlines⟩ := visits_function he hf (dataLines e.state)
  exact ⟨s, em, hvisit, hem, hlines, fun j decl hj hconstant hscalar =>
    lowerStmt_storedByInit hem hs hj hconstant hscalar⟩

/-- `const int k = 5; int f(int a) { const int k = a; { int k; k = 1; } return k; }` -/
def hiddenConstants : String :=
  "const int k = 5; int f(int a) \x7b const int k = a; \x7b int k; k = 1; \x7d return k; \x7d"

/-- The assignment goes to the variable of the block, and the constants that it hides are stored to
once. -/
theorem compile_storedByInit_hiddenConstants :
    ∃ program listing decl,
      (Token.ofSource "a.c" hiddenConstants).bind Program.ofTokens = .ok program ∧
      compile "a.c" hiddenConstants = .ok listing ∧
      storesOf listing.lines = [.label "k", .frame (-2), .frame (-4)] ∧
      decl.name = "k" ∧ decl.init.isSome = true ∧
      StoredByInit .empty program decl (.label "k") listing.lines := by
  have hstores : (compile "a.c" hiddenConstants).map (fun listing => storesOf listing.lines) =
      .ok [.label "k", .frame (-2), .frame (-4)] := by decide +kernel
  have hdecls : ((Token.ofSource "a.c" hiddenConstants).bind Program.ofTokens).map
      (fun program => (Stmt.outerDeclsOfAll program).map fun decl =>
        (decl.name, decl.ty, decl.constant, decl.init.isSome)) =
      .ok [("k", .int, true, true)] := by decide +kernel
  cases hcompile : compile "a.c" hiddenConstants with
  | error d =>
    rw [hcompile] at hstores
    cases hstores
  | ok listing =>
    rw [hcompile] at hstores
    obtain ⟨tokens, program, htokens, hprogram, hfile, -⟩ := compile_storedByInit hcompile
    rw [htokens] at hdecls
    simp only [Except.bind, hprogram, Except.map, Except.ok.injEq] at hdecls hstores
    obtain ⟨decl, hdecl, hk⟩ := List.mem_map.1 (hdecls ▸ List.mem_singleton_self _)
    simp only [Prod.mk.injEq] at hk
    obtain ⟨hname, hty, hconstant, hinit⟩ := hk
    have hstored := hfile decl hdecl hconstant (by rw [hty]; rfl)
    rw [hname] at hstored
    have hparsed : (Token.ofSource "a.c" hiddenConstants).bind Program.ofTokens = .ok program := by
      rw [htokens]
      exact hprogram
    exact ⟨program, listing, decl, hparsed, rfl, hstores, hname, hinit, hstored⟩

end WordC
