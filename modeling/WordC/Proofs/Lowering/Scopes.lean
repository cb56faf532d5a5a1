import WordC.Proofs.Frame.Session

/-!
# Scopes behind a statement

Behind each statement that is lowered the scopes around it are what they were.

* `SymbolTable.Gains`: nothing is added to the table but variables to the innermost scope;
* `lowerStmt_gains`: inside a function these are the variables that stand in no block of their own;
* `RestoresScopes`: what the symbol table is behind a statement, and `visits_restoresScopes`: so it
  is behind each statement of a program.
-/

namespace WordC
open Lowering

namespace Stmt

/-- The variables of a statement that stand in no block of their own. -/
def bareDecls : Stmt → List Variable
  | .var _ decl => [decl]
  | .ifThen _ _ yes => yes.bareDecls
  | .ifElse _ _ yes no => yes.bareDecls ++ no.bareDecls
  | .whileLoop _ _ body | .forLoop _ _ _ _ body => body.bareDecls
  | .prototype .. | .function .. | .block .. | .expr .. | .ret .. => []

/-- Only a declaration has variables in no block of their own if the nested statements have none. -/
theorem bareDecls_eq_nil_or {stmt : Stmt} (h : ∀ inner ∈ stmt.nested, inner.bareDecls = []) :
    stmt.bareDecls = [] ∨ ∃ pos decl, stmt = .var pos decl := by
  cases stmt with
  | var pos decl => exact .inr ⟨pos, decl, rfl⟩
  | ifElse pos cond yes no =>
    have hyes := h yes (by simp [nested])
    have hno := h no (by simp [nested])
    exact .inl (by rw [bareDecls, hyes, hno, List.append_nil])
  | ifThen pos cond body | whileLoop pos cond body | forLoop pos init cond step body =>
    have hbody := h body (by simp [nested])
    exact .inl (by rw [bareDecls, hbody])
  | prototype | function | block | expr | ret => exact .inl (by rw [bareDecls])

/-- The head of a function, and whether it is defined here. -/
def heading? : Stmt → Option (Signature × Bool)
  | .prototype _ head => some (head, false)
  | .function _ head _ => some (head, true)
  | _ => none

end Stmt

/-! ### Variables in the innermost scope -/

/-- The entry of a local variable. -/
def Variable.IsLocalEntry (decl : Variable) (entry : String × Symbol) : Prop :=
  entry.1 = decl.name ∧ ∃ offset, entry.2 = .stack offset decl.ty decl.constant

/-- The innermost scope has gained these variables behind the names it had, and nothing else has
changed in the table. -/
def SymbolTable.Gains (table : SymbolTable) (decls : List Variable) (table' : SymbolTable) : Prop :=
  ∃ added, List.Forall₂ Variable.IsLocalEntry decls added ∧
    table' = table.setCurrent (table.current ++ added)

namespace SymbolTable

theorem setCurrent_current (table : SymbolTable) : table.setCurrent table.current = table := by
  obtain ⟨globals, scopes⟩ := table
  cases scopes <;> rfl

theorem setCurrent_setCurrent (table : SymbolTable) (scope scope' : Scope) :
    (table.setCurrent scope).setCurrent scope' = table.setCurrent scope' := by
  obtain ⟨globals, scopes⟩ := table
  cases scopes <;> rfl

namespace Gains

variable {table table' table'' : SymbolTable} {decls decls' : List Variable}

theorem nothing (table : SymbolTable) : table.Gains [] table :=
  ⟨[], .nil, by rw [List.append_nil, setCurrent_current]⟩

theorem trans (h : table.Gains decls table') (h' : table'.Gains decls' table'') :
    table.Gains (decls ++ decls') table'' := by
  obtain ⟨added, hadded, rfl⟩ := h
  obtain ⟨added', hadded', rfl⟩ := h'
  refine ⟨added ++ added', List.rel_append hadded hadded', ?_⟩
  rw [current_setCurrent, setCurrent_setCurrent, List.append_assoc]

/-- A local variable is a new name. -/
theorem declare {decl : Variable} {offset : Int16}
    (h : table.declare decl.name (.stack offset decl.ty decl.constant) = .ok table') :
    table.Gains [decl] table' := by
  obtain ⟨hnew, rfl⟩ := declare_stack_ok h
  refine ⟨[(decl.name, .stack offset decl.ty decl.constant)], ?_, ?_⟩
  · exact .cons ⟨rfl, offset, rfl⟩ .nil
  · rw [Scope.insert_of_get? _ hnew]

/-- What a block declares is gone behind it. -/
theorem closeScope (h : table.openScope.Gains decls table') : table'.closeScope = table := by
  obtain ⟨added, -, rfl⟩ := h
  rfl

theorem globals (h : table.Gains decls table') (hscopes : table.scopes ≠ []) :
    table'.globals = table.globals := by
  obtain ⟨added, -, rfl⟩ := h
  obtain ⟨globals, scopes⟩ := table
  cases scopes with
  | nil => exact absurd rfl hscopes
  | cons scope outer => rfl

end Gains

end SymbolTable

namespace Lowering

variable {s : Session} {em : Emission Session Unit}

/-! ### Statements inside a function -/

theorem evaluateOption_symbols {e : Option Expr} (h : evaluateOption e s = .ok em) :
    em.state.symbols = s.symbols := by
  cases e with
  | none => rw [evaluateOption_none_ok h]
  | some e =>
    obtain ⟨a, -, rfl⟩ := evaluateOnly_ok h
    rfl

theorem branch_symbols {cond : Expr} {ok otherwise : String}
    (h : branch cond ok otherwise s = .ok em) : em.state.symbols = s.symbols := by
  obtain ⟨a, -, rfl⟩ := branch_ok h
  rfl

theorem loopTest_symbols {done : String} {cond : Option Expr} (h : loopTest done cond s = .ok em) :
    em.state.symbols = s.symbols := by
  cases cond with
  | none => rw [Emitter.pure_eq_ok_iff.1 h]
  | some cond =>
    rw [branch_symbols (loopTest_some_ok h)]
    rfl

theorem lowerVariable_gains {pos : Position} {decl : Variable} (hs : s.frame ≠ none)
    (h : lowerVariable pos decl s = .ok em) : s.symbols.Gains [decl] em.state.symbols := by
  obtain ⟨scratch, p, hp, ht, -⟩ := lowerVariable_ok h
  rcases place_value hp with ⟨hnone, -⟩ | ⟨-, offset, hstack⟩
  · exact absurd hnone hs
  · rw [hstack] at ht
    exact .declare ht

theorem lowerLoop_gains {cond step : Option Expr} {body : Stmt}
    (hbody : ∀ {s : Session} {em : Emission Session Unit}, lowerStmt body s = .ok em →
      s.frame ≠ none → s.symbols.Gains body.bareDecls em.state.symbols)
    (h : lowerLoop cond step (lowerStmt body) s = .ok em) (hs : s.frame ≠ none) :
    s.symbols.Gains body.bareDecls em.state.symbols := by
  obtain ⟨t, b, u, ht, hb, hu, rfl⟩ := lowerLoop_ok h
  have hgains := hbody hb (mt (loopTest_emits ht).frame.1 hs)
  rw [loopTest_symbols ht] at hgains
  rw [evaluateOption_symbols hu]
  exact hgains

theorem lowerItems_gains_of {items : List Stmt}
    (hitems : ∀ item ∈ items, ∀ {s : Session} {em : Emission Session Unit},
      lowerStmt item s = .ok em → s.frame ≠ none →
      s.symbols.Gains item.bareDecls em.state.symbols) :
    ∀ {s : Session} {em : Emission Session Unit}, lowerItems items s = .ok em → s.frame ≠ none →
      s.symbols.Gains (items.flatMap Stmt.bareDecls) em.state.symbols := by
  induction items with
  | nil =>
    intro s em h hs
    rw [lowerItems_nil_ok h]
    exact .nothing _
  | cons item items ih =>
    intro s em h hs
    obtain ⟨a, b, ha, hb, rfl⟩ := lowerItems_cons_ok h
    rw [List.forall_mem_cons] at hitems
    have hrest := ih hitems.2 hb (mt (lowerStmt_emits item ha).frame.1 hs)
    rw [List.flatMap_cons]
    exact (hitems.1 ha hs).trans hrest

/-- Inside a function the innermost scope gains the variables that stand in no block of their own,
and nothing else changes in the table. -/
theorem lowerStmt_gains (stmt : Stmt) : ∀ {s : Session} {em : Emission Session Unit},
    lowerStmt stmt s = .ok em → s.frame ≠ none →
    s.symbols.Gains stmt.bareDecls em.state.symbols := by
  induction stmt using Stmt.induct with
  | var pos decl =>
    intro s em h hs
    rw [lowerStmt, Emitter.visit_apply] at h
    exact lowerVariable_gains hs h
  | prototype pos head =>
    intro s em h hs
    rw [lowerStmt, Emitter.visit_apply] at h
    exact absurd (declareFunction_ok h).1 hs
  | function pos head body ih =>
    intro s em h hs
    rw [lowerStmt_function_apply] at h
    exact absurd (lowerFunction_ok h).1 hs
  | block pos items ih =>
    intro s em h hs
    rw [lowerStmt, Emitter.visit_apply] at h
    obtain ⟨-, a, ha, rfl⟩ | ⟨hf, -⟩ := inScope_ok h
    · rw [(lowerItems_gains_of ih ha hs).closeScope]
      exact .nothing _
    · exact absurd hf hs
  | expr pos e =>
    intro s em h hs
    rw [lowerStmt, Emitter.visit_apply] at h
    obtain ⟨a, -, rfl⟩ := evaluateOnly_ok h
    exact .nothing _
  | ifThen pos cond yes ih =>
    intro s em h hs
    obtain ⟨c, y, hc, hy, rfl⟩ := lowerStmt_ifThen_ok h
    have hyes := ih hy (mt (branch_emits hc).frame.1 hs)
    rw [branch_symbols hc] at hyes
    exact hyes
  | ifElse pos cond yes no ihy ihn =>
    intro s em h hs
    obtain ⟨c, y, z, hc, hy, hz, rfl⟩ := lowerStmt_ifElse_ok h
    have hs' := mt (branch_emits hc).frame.1 hs
    have hyes := ihy hy hs'
    rw [branch_symbols hc] at hyes
    have hno := ihn hz (mt (lowerStmt_emits yes hy).frame.1 hs')
    exact hyes.trans hno
  | whileLoop pos cond body ih =>
    intro s em h hs
    rw [lowerStmt, Emitter.visit_apply] at h
    rw [Stmt.bareDecls]
    exact lowerLoop_gains ih h hs
  | forLoop pos init cond step body ih =>
    intro s em h hs
    obtain ⟨i, l, hi, hl, rfl⟩ := lowerStmt_forLoop_ok h
    have hloop := lowerLoop_gains ih hl (mt (evaluateOption_emits hi).frame.1 hs)
    rw [evaluateOption_symbols hi] at hloop
    exact hloop
  | ret pos value =>
    intro s em h hs
    rw [lowerStmt, Emitter.visit_apply] at h
    cases value with
    | none =>
      obtain ⟨-, rfl⟩ := lowerReturn_none_ok h
      exact .nothing _
    | some e =>
      obtain ⟨-, a, -, rfl⟩ := lowerReturn_some_ok h
      exact .nothing _

/-! ### Functions -/

/-- Behind a function, declared or defined, the file has gained its name and no scope is open. -/
theorem lowerStmt_head {stmt : Stmt} {head : Signature} {defined : Bool} {depth : Nat}
    (hhead : stmt.heading? = some (head, defined)) (h : lowerStmt stmt s = .ok em)
    (hs : s.Valid depth) :
    s.frame = none ∧ ∃ symbol,
      Symbol.merge? (s.symbols.globals.get? head.name) (functionSymbol head defined) = some symbol ∧
      em.state.symbols = ⟨s.symbols.globals.insert head.name symbol, []⟩ := by
  cases stmt with
  | prototype pos head =>
    cases hhead
    rw [lowerStmt, Emitter.visit_apply] at h
    obtain ⟨hf, table, ht, rfl⟩ := declareFunction_ok h
    obtain rfl := hs.frame.1 hf
    obtain ⟨symbol, -, hmerge, rfl⟩ := hs.symbols.declare_file ht
    exact ⟨hf, symbol, hmerge, rfl⟩
  | function pos head body =>
    cases hhead
    rw [lowerStmt_function_apply] at h
    obtain ⟨hf, table, p, b, reserve, ht, hp, hb, -, rfl⟩ := lowerFunction_ok h
    obtain ⟨rfl, hparams, hglobals⟩ := hs.enterFunction hf ht hp
    obtain ⟨symbol, -, hmerge, rfl⟩ := hs.symbols.declare_file ht
    -- the body adds to the scope of the parameters only, which is closed behind it
    have hbody := lowerItems_gains_of (fun item _ => lowerStmt_gains item) hb
      (mt hparams.frame.1 Nat.one_ne_zero)
    have hopen : p.state.symbols.scopes ≠ [] := by
      rw [← List.length_pos_iff, hparams.symbols.length_scopes]
      exact Nat.one_pos
    refine ⟨hf, symbol, hmerge, ?_⟩
    rw [SymbolTable.closeAll, hbody.globals hopen, hglobals]
  | var | block | expr | ifThen | ifElse | whileLoop | forLoop | ret => cases hhead

end Lowering

/-! ### Statements of a program -/

/-- What the symbol table is behind a statement. -/
structure RestoresScopes (stmt : Stmt) (s t : Session) : Prop where
  /-- Outside of functions there is no open scope. -/
  outside : (s.frame = none → s.symbols.scopes = []) ∧ (t.frame = none → t.symbols.scopes = [])
  /-- A block inside a function leaves nothing behind. -/
  block : s.frame ≠ none → ∀ pos items, stmt = .block pos items → t.symbols = s.symbols
  /-- A function is at file scope and adds to the file its name or what its name stands for. -/
  function : ∀ head defined, stmt.heading? = some (head, defined) →
    s.frame = none ∧ ∃ symbol,
      Symbol.merge? (s.symbols.globals.get? head.name) (functionSymbol head defined) = some symbol ∧
      t.symbols = ⟨s.symbols.globals.insert head.name symbol, []⟩
  /-- Inside a function the innermost scope gains the variables in no block of their own. -/
  gains : s.frame ≠ none → ∃ scope outer added, s.symbols.scopes = scope :: outer ∧
    List.Forall₂ Variable.IsLocalEntry stmt.bareDecls added ∧
    t.symbols = ⟨s.symbols.globals, (scope ++ added) :: outer⟩
  /-- Where the nested statements have none of these it gains at most the variable declared here. -/
  own : s.frame ≠ none → (∀ inner ∈ stmt.nested, inner.bareDecls = []) →
    t.symbols = s.symbols ∨ ∃ pos decl scope outer offset, stmt = .var pos decl ∧
      s.symbols.scopes = scope :: outer ∧
      t.symbols = ⟨s.symbols.globals,
        (scope ++ [(decl.name, .stack offset decl.ty decl.constant)]) :: outer⟩

theorem Session.Valid.scopes_eq_nil {s : Session} {depth : Nat} (hs : s.Valid depth)
    (hf : s.frame = none) : s.symbols.scopes = [] := by
  rw [← List.length_eq_zero_iff, hs.symbols.length_scopes]
  exact hs.frame.1 hf

theorem Session.Valid.exists_scope {s : Session} {depth : Nat} (hs : s.Valid depth)
    (hf : s.frame ≠ none) : ∃ scope outer, s.symbols.scopes = scope :: outer := by
  have hlength := hs.symbols.length_scopes
  cases hscopes : s.symbols.scopes with
  | nil =>
    rw [hscopes] at hlength
    exact absurd (hs.frame.2 hlength.symm) hf
  | cons scope outer => exact ⟨scope, outer, rfl⟩

/-- Inside a function a statement adds to the innermost scope and leaves the others. -/
theorem Lowering.lowerStmt_scopes {stmt : Stmt} {s : Session} {em : Emission Session Unit}
    {depth : Nat} (h : lowerStmt stmt s = .ok em) (hs : s.Valid depth) (hf : s.frame ≠ none) :
    ∃ scope outer added, s.symbols.scopes = scope :: outer ∧
      List.Forall₂ Variable.IsLocalEntry stmt.bareDecls added ∧
      em.state.symbols = ⟨s.symbols.globals, (scope ++ added) :: outer⟩ := by
  obtain ⟨scope, outer, hscopes⟩ := hs.exists_scope hf
  obtain ⟨added, hadded, hsymbols⟩ := lowerStmt_gains stmt h hf
  refine ⟨scope, outer, added, hscopes, hadded, ?_⟩
  simpa [SymbolTable.setCurrent, SymbolTable.current, hscopes] using hsymbols

/-- Behind each statement that is lowered in a program the scopes around it are restored. -/
theorem visits_restoresScopes {program : Program} {s : Session} {stmt : Stmt}
    {em : Emission Session Unit} (hvisits : Visits .empty program s stmt)
    (h : lowerStmt stmt s = .ok em) : RestoresScopes stmt s em.state := by
  obtain ⟨depth, hs⟩ := hvisits.valid .empty
  have hem := (lowerStmt_emits stmt h).valid hs
  refine
    { outside := ⟨hs.scopes_eq_nil, hem.scopes_eq_nil⟩
      block := ?_
      function := fun head defined hhead => lowerStmt_head hhead h hs
      gains := lowerStmt_scopes h hs
      own := ?_ }
  · rintro hf pos items rfl
    obtain ⟨scope, outer, added, hscopes, hadded, hsymbols⟩ := lowerStmt_scopes h hs hf
    rw [Stmt.bareDecls, List.forall₂_nil_left_iff] at hadded
    rw [hsymbols, hadded, List.append_nil, ← hscopes]
  · intro hf hnested
    obtain ⟨scope, outer, added, hscopes, hadded, hsymbols⟩ := lowerStmt_scopes h hs hf
    obtain hbare | ⟨pos, decl, rfl⟩ := Stmt.bareDecls_eq_nil_or hnested
    · rw [hbare, List.forall₂_nil_left_iff] at hadded
      exact .inl (by rw [hsymbols, hadded, List.append_nil, ← hscopes])
    · rw [Stmt.bareDecls, List.forall₂_cons_left_iff] at hadded
      obtain ⟨⟨x, symbol⟩, rest, ⟨rfl, offset, rfl⟩, hrest, rfl⟩ := hadded
      rw [List.forall₂_nil_left_iff] at hrest
      exact .inr ⟨pos, decl, scope, outer, offset, rfl, hscopes, by rw [hsymbols, hrest]⟩

/-- `int f(int a) { { int a; } if (a) int b; }`: the block hides the parameter, and the variable of
the condition stays. -/
def hiddenParam : Program :=
  [.function default ⟨"f", .int, [⟨"a", .int⟩]⟩ (.block default
    [.block default [.var default ⟨"a", .int, false, none⟩],
      .ifThen default (.name default "a") (.var default ⟨"b", .int, false, none⟩)])]

/-- The session at the start of the body of `f`. -/
def hiddenParamBody : Session :=
  ⟨.empty, ⟨[("f", .function 1 true)], [[("a", .stack 4 .int false)]]⟩, some ⟨"f", 0⟩⟩

/-- The parameter is back behind the block. -/
theorem visits_restoresScopes_hiddenParam : ∃ em,
    lowerStmt (.block default [.var default ⟨"a", .int, false, none⟩]) hiddenParamBody = .ok em ∧
    RestoresScopes (.block default [.var default ⟨"a", .int, false, none⟩]) hiddenParamBody
      em.state := by
  have hvisits : Visits .empty hiddenParam hiddenParamBody
      (.block default [.var default ⟨"a", .int, false, none⟩]) :=
    .inside (.function rfl rfl rfl) .here
  exact ⟨_, rfl, visits_restoresScopes hvisits rfl⟩

end WordC
