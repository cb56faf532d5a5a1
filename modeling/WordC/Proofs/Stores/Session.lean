import WordC.Proofs.Frame.Expr
import WordC.Proofs.Lowering.Visits
import WordC.Proofs.Stores.Expr

/-!
# Variables along the lowering of statements

`Lowers` says what lowering statements does to the session and which variables it declares outside
of function definitions, in order and with which symbols. It knows for each declaration how it was
lowered:

* `Lowers.emits`: what is said of sessions by `Emits` holds;
* `Lowers.symbol`: variables are in the file outside of functions, and in the frame inside of them;
* `DeclaredIn`: lowering comes to a declaration and emits its lines;
* `lowerStmt_lowers`: lowering a statement comes to the declarations of these variables, and it does
  nothing else.
-/

namespace WordC

/-! ### Bare lines -/

/-- Neither a name, nor a place of the frame, nor a store. -/
def Line.isBare (line : Line) : Bool :=
  line.references.isEmpty && line.isFrameless && line.store?.isNone

section Bare

variable {lines : List Line}

theorem isBare_of_mem (h : lines.all Line.isBare = true) {line : Line} (hline : line ∈ lines) :
    line.references = [] ∧ line.isFrameless = true ∧ line.store? = none := by
  have hbare := List.all_eq_true.1 h line hline
  simpa [Line.isBare, and_assoc] using hbare

theorem referencesOf_of_isBare (h : lines.all Line.isBare = true) : referencesOf lines = [] :=
  List.flatMap_eq_nil_iff.2 fun _ hline => (isBare_of_mem h hline).1

theorem staysWithin_of_isBare (h : lines.all Line.isBare = true) {reach : Int16 → Prop} :
    StaysWithin reach lines :=
  .plain (List.all_eq_true.2 fun _ hline => (isBare_of_mem h hline).2.1)

theorem storesOf_of_isBare (h : lines.all Line.isBare = true) : storesOf lines = [] :=
  List.filterMap_eq_nil_iff.2 fun _ hline => (isBare_of_mem h hline).2.2

end Bare

/-! ### Declarations of variables -/

/-- What is no function is declared where its name is new. -/
theorem SymbolTable.declare_of_ne_function {table table' : SymbolTable} {x : String}
    {symbol : Symbol} (hne : ∀ arity defined, symbol ≠ .function arity defined)
    (h : table.declare x symbol = .ok table') :
    table.current.get? x = none ∧ table' = table.setCurrent (table.current.insert x symbol) := by
  rw [declare_eq] at h
  split at h
  · cases h
  · split at h
    · rename_i merged hmerge
      obtain ⟨hnew, rfl⟩ := Symbol.merge?_of_ne_function hmerge hne
      cases h
      exact ⟨hnew, rfl⟩
    · cases h

namespace Lowering

variable {s : Session} {em : Emission Session Unit}

/-- A variable is in the file outside of functions, and in the frame inside of them. -/
theorem place_value {pos : Position} {ty : Ty} {constant : Bool} {p : Emission Session Symbol}
    (h : place pos ty constant s = .ok p) :
    s.frame = none ∧ p.value = .static ty constant ∨
      s.frame ≠ none ∧ ∃ offset, p.value = .stack offset ty constant := by
  cases hf : s.frame with
  | none =>
    rw [place_of_none hf h]
    exact .inl ⟨rfl, rfl⟩
  | some frame =>
    obtain ⟨bytes, -, rfl⟩ := place_of_some hf h
    exact .inr ⟨Option.some_ne_none frame, _, rfl⟩

/-- A variable is declared where its name is new. -/
theorem declare_place {pos : Position} {ty : Ty} {constant : Bool} {p : Emission Session Symbol}
    {x : String} {table table' : SymbolTable} (h : place pos ty constant s = .ok p)
    (ht : table.declare x p.value = .ok table') :
    table.current.get? x = none ∧ table'.current.get? x = some p.value := by
  have hne : ∀ arity defined, p.value ≠ .function arity defined := by
    rcases place_value h with ⟨-, hvalue⟩ | ⟨-, offset, hvalue⟩ <;> simp [hvalue]
  obtain ⟨hnew, rfl⟩ := SymbolTable.declare_of_ne_function hne ht
  refine ⟨hnew, ?_⟩
  rw [SymbolTable.current_setCurrent, Scope.get?_insert, if_pos rfl]

/-- The lines of a declaration are those of the initial value, if there is one, and a store of it
where the variable is. -/
theorem lowerVariable_ok {pos : Position} {decl : Variable}
    (h : lowerVariable pos decl s = .ok em) :
    ∃ scratch p, place pos decl.ty decl.constant { s with scratch } = .ok p ∧
      s.symbols.declare decl.name p.value = .ok em.state.symbols ∧
      (decl.init = none ∧ em.lines = [] ∨ ∃ init a address, decl.init = some init ∧
        lowerExpr s.symbols init s.scratch = .ok a ∧
        storeAddress? decl.name p.value = some address ∧
        em.lines = a.lines ++ [.instruction (.mov address a.value)]) := by
  cases hinit : decl.init with
  | none =>
    obtain ⟨p, table, hp, ht, rfl⟩ := lowerVariable_none_ok hinit h
    exact ⟨s.scratch, p, hp, ht, .inl ⟨rfl, rfl⟩⟩
  | some init =>
    obtain ⟨a, p, table, address, ha, hp, ht, haddress, rfl⟩ := lowerVariable_some_ok hinit h
    exact ⟨a.state, p, hp, ht, .inr ⟨init, a, address, rfl, ha, haddress, rfl⟩⟩

end Lowering

open Lowering

/-! ### Steps -/

/-- From the first session the lines are emitted, the variables are declared in order with these
symbols, and the second session is left. The variables inside of function definitions are not among
them. -/
inductive Lowers : Session → List Line → List (Variable × Symbol) → Session → Prop
  /-- Lines that name and store nothing, and labels handed out. -/
  | code (s : Session) {lines : List Line} (n : Nat) (h : lines.all Line.isBare = true) :
    Lowers s lines [] (s.skipLabels n)
  /-- An expression whose register is given back. -/
  | expr {s : Session} {e : Expr} {a : Emission Scratch Register}
    (h : lowerExpr s.symbols e s.scratch = .ok a) : Lowers s a.lines [] (s.afterExpr a)
  /-- A variable, with what its name stands for from here on. -/
  | var {s : Session} {pos : Position} {decl : Variable} {symbol : Symbol}
    {em : Emission Session Unit} (h : lowerVariable pos decl s = .ok em)
    (hsymbol : em.state.symbols.current.get? decl.name = some symbol) :
    Lowers s em.lines [(decl, symbol)] em.state
  /-- A function without a body. -/
  | prototype {s : Session} {head : Signature} {table : SymbolTable} (hf : s.frame = none)
    (ht : s.symbols.declare head.name (functionSymbol head false) = .ok table) :
    Lowers s [] [] { s with symbols := table }
  | append {s t u : Session} {lines lines' : List Line} {vars vars' : List (Variable × Symbol)}
    (h : Lowers s lines vars t) (h' : Lowers t lines' vars' u) :
    Lowers s (lines ++ lines') (vars ++ vars') u
  /-- A block inside a function. -/
  | block {s t : Session} {lines : List Line} {vars : List (Variable × Symbol)}
    (hf : s.frame.isSome = true)
    (h : Lowers { s with symbols := s.symbols.openScope } lines vars t) :
    Lowers s lines vars { t with symbols := t.symbols.closeScope }
  /-- A function with its body. -/
  | function {s t : Session} {pos : Position} {head : Signature} {table : SymbolTable}
    {p : Emission Session Unit} {reserve : List Instruction} {lines : List Line}
    {locals : List (Variable × Symbol)} (hf : s.frame = none)
    (ht : s.symbols.declare head.name (functionSymbol head true) = .ok table)
    (hp : declareParams pos head.name head.params
      ⟨s.scratch, table.openScope, some ⟨head.name, 0⟩⟩ = .ok p)
    (hreserve : reserve = [] ∨ ∃ bytes, reserve = reservation bytes)
    (h : Lowers p.state lines locals t) :
    Lowers s ([.label head.name] ++ ((prologue ++ reserve).map .instruction ++ (lines ++
      epilogue.map .instruction))) [] ⟨t.scratch, t.symbols.closeAll, none⟩

namespace Lowers

variable {s t : Session} {lines : List Line} {vars : List (Variable × Symbol)}

theorem emits (h : Lowers s lines vars t) : ∃ c, Emits s lines c t := by
  induction h with
  | code s n h => exact ⟨_, .code s n (referencesOf_of_isBare h)⟩
  | expr h => exact ⟨_, .expr h⟩
  | @var s pos decl symbol em h hsymbol =>
    exact ⟨_, lowerStmt_emits (.var pos decl) (by rwa [lowerStmt])⟩
  | prototype hf ht => exact ⟨_, .prototype hf ht⟩
  | append h h' ih ih' =>
    obtain ⟨c, hc⟩ := ih
    obtain ⟨c', hc'⟩ := ih'
    exact ⟨_, hc.append hc'⟩
  | block hf h ih =>
    obtain ⟨c, hc⟩ := ih
    exact ⟨_, .block hf hc⟩
  | function hf ht hp hreserve h ih =>
    obtain ⟨c, hc⟩ := ih
    exact ⟨_, .function hf ht hp hreserve hc⟩

/-- Inside a function one stays inside, and outside one stays outside. -/
theorem frame (h : Lowers s lines vars t) : t.frame = none ↔ s.frame = none := by
  obtain ⟨c, hc⟩ := h.emits
  exact hc.frame

/-- The variables are in the file outside of functions, and in the frame inside of them. -/
theorem symbol (h : Lowers s lines vars t) : ∀ decl symbol, (decl, symbol) ∈ vars →
    s.frame = none ∧ symbol = .static decl.ty decl.constant ∨
      s.frame ≠ none ∧ ∃ offset, symbol = .stack offset decl.ty decl.constant := by
  induction h with
  | code | expr | prototype | function => exact fun _ _ hmem => absurd hmem List.not_mem_nil
  | @var s pos decl symbol em h hsymbol =>
    intro decl' symbol' hmem
    obtain ⟨rfl, rfl⟩ := Prod.mk.inj (List.mem_singleton.1 hmem)
    obtain ⟨scratch, p, hp, ht, -⟩ := lowerVariable_ok h
    obtain rfl : symbol' = p.value := Option.some.inj (hsymbol.symm.trans (declare_place hp ht).2)
    have hvalue := place_value hp
    exact hvalue
  | append h h' ih ih' =>
    intro decl symbol hmem
    rcases List.mem_append.1 hmem with hmem | hmem
    · exact ih decl symbol hmem
    · exact (ih' decl symbol hmem).imp (.imp_left h.frame.1) (.imp_left (mt h.frame.2))
  | block hf h ih => exact ih

theorem symbol_file (h : Lowers s lines vars t) (hs : s.frame = none) {decl : Variable}
    {symbol : Symbol} (hmem : (decl, symbol) ∈ vars) : symbol = .static decl.ty decl.constant := by
  rcases h.symbol decl symbol hmem with ⟨-, hstatic⟩ | ⟨hsome, -⟩
  · exact hstatic
  · exact absurd hs hsome

theorem symbol_frame (h : Lowers s lines vars t) (hs : s.frame ≠ none) {decl : Variable}
    {symbol : Symbol} (hmem : (decl, symbol) ∈ vars) :
    ∃ offset, symbol = .stack offset decl.ty decl.constant := by
  rcases h.symbol decl symbol hmem with ⟨hnone, -⟩ | ⟨-, hstack⟩
  · exact absurd hnone hs
  · exact hstack

end Lowers

/-! ### Statements -/

/-- Lowering comes to the declaration of the variable, which gives it the symbol, and the lines of
the declaration stand among the given ones. -/
def DeclaredIn (visits : Session → Stmt → Prop) (lines : List Line) (var : Variable × Symbol) :
    Prop :=
  ∃ pos s em, visits s (.var pos var.1) ∧ lowerStmt (.var pos var.1) s = .ok em ∧
    em.state.symbols.current.get? var.1.name = some var.2 ∧ em.lines <:+: lines

theorem DeclaredIn.mono {visits visits' : Session → Stmt → Prop} {lines lines' : List Line}
    {var : Variable × Symbol} (h : DeclaredIn visits lines var)
    (hvisits : ∀ {t stmt}, visits t stmt → visits' t stmt) (hlines : lines <:+: lines') :
    DeclaredIn visits' lines' var := by
  obtain ⟨pos, s, em, hvisit, hem, hsymbol, hinner⟩ := h
  exact ⟨pos, s, em, hvisits hvisit, hem, hsymbol, hinner.trans hlines⟩

/-- From the first session the lines are emitted, these variables are declared in order where
lowering comes to them, and the second session is left. -/
def LowersVars (visits : Session → Stmt → Prop) (s : Session) (lines : List Line)
    (decls : List Variable) (t : Session) : Prop :=
  ∃ vars, vars.map Prod.fst = decls ∧ (∀ var ∈ vars, DeclaredIn visits lines var) ∧
    Lowers s lines vars t

namespace LowersVars

variable {visits visits' : Session → Stmt → Prop} {s t u : Session} {lines lines' : List Line}
  {decls decls' : List Variable}

theorem none (h : Lowers s lines [] t) : LowersVars visits s lines [] t :=
  ⟨[], rfl, fun _ hmem => absurd hmem List.not_mem_nil, h⟩

theorem imp (h : LowersVars visits s lines decls t)
    (hvisits : ∀ {t stmt}, visits t stmt → visits' t stmt) :
    LowersVars visits' s lines decls t := by
  obtain ⟨vars, hdecls, hdeclared, hrun⟩ := h
  have hsame : lines <:+: lines := (List.suffix_refl lines).isInfix
  exact ⟨vars, hdecls, fun var hmem => (hdeclared var hmem).mono hvisits hsame, hrun⟩

/-- What the nested statements of a statement come to, the statement comes to. -/
theorem inside {stmt : Stmt} {r r' : Session} (hstmt : Enters stmt r r')
    (h : LowersVars (Visits r' stmt.nested) s lines decls t) :
    LowersVars (Visits r [stmt]) s lines decls t := h.imp fun hvisit => .inside hstmt hvisit

theorem append (h : LowersVars visits s lines decls t) (h' : LowersVars visits t lines' decls' u) :
    LowersVars visits s (lines ++ lines') (decls ++ decls') u := by
  obtain ⟨vars, rfl, hdeclared, hrun⟩ := h
  obtain ⟨vars', rfl, hdeclared', hrun'⟩ := h'
  refine ⟨vars ++ vars', List.map_append, fun var hmem => ?_, hrun.append hrun'⟩
  rcases List.mem_append.1 hmem with hmem | hmem
  · exact (hdeclared var hmem).mono id ⟨[], lines', by simp⟩
  · exact (hdeclared' var hmem).mono id ⟨lines, [], by simp⟩

/-- Code behind the lines. -/
theorem appendCode (h : LowersVars visits s lines decls t) (lines' : List Line)
    (hcode : lines'.all Line.isBare = true) : LowersVars visits s (lines ++ lines') decls t := by
  have hall := h.append (.none (.code t 0 hcode))
  rwa [List.append_nil] at hall

/-- Labels handed out and code in front of the lines. -/
theorem prependCode {n : Nat} (h : LowersVars visits (s.skipLabels n) lines decls t)
    (lines' : List Line) (hcode : lines'.all Line.isBare = true) :
    LowersVars visits s (lines' ++ lines) decls t :=
  LowersVars.append (.none (.code s n hcode)) h

end LowersVars

namespace Lowering

variable {s : Session} {em : Emission Session Unit}

theorem lowerVariable_lowers {pos : Position} {decl : Variable}
    (h : lowerVariable pos decl s = .ok em) :
    LowersVars (Visits s [.var pos decl]) s em.lines [decl] em.state := by
  obtain ⟨scratch, p, hp, ht, -⟩ := lowerVariable_ok h
  have hsymbol := (declare_place hp ht).2
  refine ⟨[(decl, p.value)], rfl, fun var hmem => ?_, .var h hsymbol⟩
  obtain rfl := List.mem_singleton.1 hmem
  exact ⟨pos, s, em, .here, by rwa [lowerStmt], hsymbol, (List.suffix_refl _).isInfix⟩

variable {visits : Session → Stmt → Prop}

theorem evaluateOption_lowers {e : Option Expr} (h : evaluateOption e s = .ok em) :
    LowersVars visits s em.lines [] em.state := by
  cases e with
  | none =>
    rw [evaluateOption_none_ok h]
    exact .none (.code s 0 rfl)
  | some e =>
    obtain ⟨a, ha, rfl⟩ := evaluateOnly_ok h
    exact .none (.expr ha)

theorem branch_lowers {cond : Expr} {ok otherwise : String}
    (h : branch cond ok otherwise s = .ok em) : LowersVars visits s em.lines [] em.state := by
  obtain ⟨a, ha, rfl⟩ := branch_ok h
  exact (LowersVars.none (.expr ha)).appendCode _ rfl

theorem loopTest_lowers {done : String} {cond : Option Expr} (h : loopTest done cond s = .ok em) :
    LowersVars visits s em.lines [] em.state := by
  cases cond with
  | none =>
    rw [Emitter.pure_eq_ok_iff.1 h]
    exact .none (.code s 0 rfl)
  | some cond => exact (branch_lowers (loopTest_some_ok h)).prependCode [] rfl

theorem lowerLoop_lowers {cond step : Option Expr} {body : Stmt}
    (hbody : ∀ {s : Session} {em : Emission Session Unit}, lowerStmt body s = .ok em →
      LowersVars (Visits s [body]) s em.lines body.outerDecls em.state)
    (h : lowerLoop cond step (lowerStmt body) s = .ok em) :
    ∃ t, loopTest (flowLabel (s.scratch.labels + 1)) cond (s.skipLabels 2) = .ok t ∧
      LowersVars (Visits t.state [body]) s em.lines body.outerDecls em.state := by
  obtain ⟨t, b, u, ht, hb, hu, rfl⟩ := lowerLoop_ok h
  have hparts := (loopTest_lowers ht).append ((hbody hb).append
    ((evaluateOption_lowers hu).appendCode [.instruction (.jmp (flowLabel s.scratch.labels)),
      .label (flowLabel (s.scratch.labels + 1))] rfl))
  rw [List.nil_append, List.append_nil] at hparts
  exact ⟨t, ht, hparts.prependCode [.label (flowLabel s.scratch.labels)] rfl⟩

theorem lowerItems_lowers_of {items : List Stmt}
    (hitems : ∀ item ∈ items, ∀ {s : Session} {em : Emission Session Unit},
      lowerStmt item s = .ok em →
      LowersVars (Visits s [item]) s em.lines item.outerDecls em.state) :
    ∀ {s : Session} {em : Emission Session Unit}, lowerItems items s = .ok em →
      LowersVars (Visits s items) s em.lines (Stmt.outerDeclsOfAll items) em.state := by
  induction items with
  | nil =>
    intro s em h
    rw [lowerItems_nil_ok h, Stmt.outerDeclsOfAll]
    exact .none (.code s 0 rfl)
  | cons item items ih =>
    intro s em h
    obtain ⟨a, b, ha, hb, rfl⟩ := lowerItems_cons_ok h
    rw [List.forall_mem_cons] at hitems
    rw [Stmt.outerDeclsOfAll]
    exact ((hitems.1 ha).imp fun hvisit => hvisit.append items).append
      ((ih hitems.2 hb).imp fun hvisit => .next ha hvisit)

/-- Lowering a statement comes to the declarations of its variables, in order, and does nothing
else. -/
theorem lowerStmt_lowers (stmt : Stmt) : ∀ {s : Session} {em : Emission Session Unit},
    lowerStmt stmt s = .ok em →
    LowersVars (Visits s [stmt]) s em.lines stmt.outerDecls em.state := by
  induction stmt using Stmt.induct with
  | var pos decl =>
    intro s em h
    rw [lowerStmt, Emitter.visit_apply] at h
    exact lowerVariable_lowers h
  | prototype pos head =>
    intro s em h
    rw [lowerStmt, Emitter.visit_apply] at h
    obtain ⟨hf, table, ht, rfl⟩ := declareFunction_ok h
    exact .none (.prototype hf ht)
  | function pos head body ih =>
    intro s em h
    rw [lowerStmt_function_apply] at h
    obtain ⟨hf, table, p, b, reserve, ht, hp, hb, hreserve, rfl⟩ := lowerFunction_ok h
    obtain ⟨locals, -, -, hrun⟩ := lowerItems_lowers_of ih hb
    exact .none (.function hf ht hp hreserve hrun)
  | block pos items ih =>
    intro s em h
    rw [lowerStmt, Emitter.visit_apply] at h
    rw [Stmt.outerDecls]
    obtain ⟨hf, a, ha, rfl⟩ | ⟨hf, ha⟩ := inScope_ok h
    · refine .inside (.block hf) ?_
      obtain ⟨vars, hdecls, hdeclared, hrun⟩ := lowerItems_lowers_of ih ha
      exact ⟨vars, hdecls, hdeclared, .block hf hrun⟩
    · exact .inside (.fileBlock hf) (lowerItems_lowers_of ih ha)
  | expr pos e =>
    intro s em h
    rw [lowerStmt, Emitter.visit_apply] at h
    obtain ⟨a, ha, rfl⟩ := evaluateOnly_ok h
    exact .none (.expr ha)
  | ifThen pos cond yes ih =>
    intro s em h
    obtain ⟨c, y, hc, hy, rfl⟩ := lowerStmt_ifThen_ok h
    have hparts := (branch_lowers hc).append
      ((ih hy).appendCode [.label (flowLabel (s.scratch.labels + 1))] rfl)
    exact .inside (.ifThen hc) (hparts.prependCode [] rfl)
  | ifElse pos cond yes no ihy ihn =>
    intro s em h
    obtain ⟨c, y, z, hc, hy, hz, rfl⟩ := lowerStmt_ifElse_ok h
    have hyes := (ihy hy).imp fun hvisit => hvisit.append [no]
    have hno := (ihn hz).imp fun hvisit => Visits.next hy hvisit
    have hno' := (hno.appendCode [.label (flowLabel (s.scratch.labels + 2))] rfl).prependCode
      (n := 0) [.instruction (.jmp (flowLabel (s.scratch.labels + 2))),
        .label (flowLabel (s.scratch.labels + 1))] rfl
    have hparts := (branch_lowers hc).append (hyes.append hno')
    exact .inside (.ifElse hc) (hparts.prependCode [] rfl)
  | whileLoop pos cond body ih =>
    intro s em h
    rw [lowerStmt, Emitter.visit_apply] at h
    rw [Stmt.outerDecls]
    obtain ⟨t, ht, hloop⟩ := lowerLoop_lowers ih h
    exact .inside (.whileLoop ht) hloop
  | forLoop pos init cond step body ih =>
    intro s em h
    obtain ⟨i, l, hi, hl, rfl⟩ := lowerStmt_forLoop_ok h
    obtain ⟨t, ht, hloop⟩ := lowerLoop_lowers ih hl
    exact .inside (.forLoop hi ht) ((evaluateOption_lowers hi).append hloop)
  | ret pos value =>
    intro s em h
    rw [lowerStmt, Emitter.visit_apply] at h
    cases value with
    | none =>
      obtain ⟨-, rfl⟩ := lowerReturn_none_ok h
      exact .none (.code s 0 rfl)
    | some e =>
      obtain ⟨-, a, ha, rfl⟩ := lowerReturn_some_ok h
      exact (LowersVars.none (.expr ha)).appendCode _ rfl

/-- Lowering statements comes to the declarations of their variables, in order, and does nothing
else. -/
theorem lowerItems_lowers {items : List Stmt} (h : lowerItems items s = .ok em) :
    LowersVars (Visits s items) s em.lines (Stmt.outerDeclsOfAll items) em.state :=
  lowerItems_lowers_of (fun item _ => lowerStmt_lowers item) h

end Lowering

end WordC
