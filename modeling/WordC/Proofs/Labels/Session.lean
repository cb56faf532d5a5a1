import WordC.Proofs.Labels.Expr
import WordC.Proofs.Lowering.Stmt

/-!
# Sessions and what they refer to

`Emits` says once what lowering statements does to the session, step by step, and
`lowerStmt_emits` that it does nothing else. From it follow

* `Emits.valid`: the symbol table stays valid, with as many scopes open as before;
* `Emits.pool`: all registers are given back;
* `Emits.strings`: the texts of the string literals are added in order;
* `Emits.grows`: the declarations among the contents are added to the names of the file;
* `Emits.references`: the lines refer to the labels of the string literals, each of them once, and
  else to names of the file.
-/

namespace WordC
open Lowering

/-! ### Valid sessions -/

/-- The symbol table is valid for so many open scopes, and inside a function there are some. -/
structure Session.Valid (s : Session) (depth : Nat) : Prop where
  symbols : s.symbols.Valid depth
  frame : s.frame = none ↔ depth = 0

theorem Session.Valid.empty : Session.empty.Valid 0 := ⟨.empty, by simp [Session.empty]⟩

/-- Inside a function variables are local, and outside they are not. -/
theorem Lowering.place_isGlobal {s : Session} {pos : Position} {ty : Ty} {constant : Bool}
    {p : Emission Session Symbol} (h : place pos ty constant s = .ok p) :
    (p.value.isGlobal = true ↔ s.frame = none) ∧ (p.state.frame = none ↔ s.frame = none) := by
  cases hf : s.frame with
  | none =>
    rw [place_of_none hf h]
    simp [Symbol.isGlobal, hf]
  | some frame =>
    obtain ⟨bytes, -, rfl⟩ := place_of_some hf h
    simp [Symbol.isGlobal]

theorem Lowering.declareParams_valid {pos : Position} {function : String} {depth : Nat} :
    ∀ {params : List Param} {s : Session} {em : Emission Session Unit},
    declareParams pos function params s = .ok em → s.Valid (depth + 1) →
    em.state.Valid (depth + 1) ∧ em.state.symbols.globals = s.symbols.globals
  | [], _, _, h, hs => by
    rw [declareParams_nil_ok h]
    exact ⟨hs, rfl⟩
  | param :: params, s, _, h, hs => by
    obtain ⟨offset, table, -, ht, h⟩ := declareParams_cons_ok h
    have htable := hs.symbols.declare (by simp [Symbol.isGlobal]) ht
    obtain ⟨hvalid, hglobals⟩ := declareParams_valid h ⟨htable, hs.frame⟩
    exact ⟨hvalid, hglobals.trans (hs.symbols.globals_declare ht)⟩

/-- Inside a function a scope is opened for a block. -/
theorem Session.Valid.openBlock {s : Session} {depth : Nat} (hs : s.Valid depth)
    (hf : s.frame.isSome = true) :
    depth ≠ 0 ∧ Session.Valid { s with symbols := s.symbols.openScope } (depth + 1) := by
  have hsome : s.frame ≠ none := by rwa [← Option.isSome_iff_ne_none]
  exact ⟨fun hdepth => hsome (hs.frame.2 hdepth), hs.symbols.openScope, by simp [hsome]⟩

/-- Behind its parameters one is inside the function, which is declared in the file. -/
theorem Session.Valid.enterFunction {s : Session} {depth : Nat} {pos : Position} {head : Signature}
    {table : SymbolTable} {p : Emission Session Unit} (hs : s.Valid depth) (hf : s.frame = none)
    (ht : s.symbols.declare head.name (functionSymbol head true) = .ok table)
    (hp : declareParams pos head.name head.params
      ⟨s.scratch, table.openScope, some ⟨head.name, 0⟩⟩ = .ok p) :
    depth = 0 ∧ p.state.Valid 1 ∧ p.state.symbols.globals = table.globals := by
  have hdepth := hs.frame.1 hf
  have htable := hs.symbols.declare (by simpa [functionSymbol, Symbol.isGlobal] using hdepth) ht
  subst hdepth
  exact ⟨rfl, declareParams_valid hp ⟨htable.openScope, by simp⟩⟩

/-! ### Steps -/

/-- From the first session the lines are emitted and the second is left. The contents are those of
the statements that were lowered. -/
inductive Emits : Session → List Line → Contents → Session → Prop
  /-- Lines that refer to nothing, and labels handed out. -/
  | code (s : Session) {lines : List Line} (n : Nat) (h : referencesOf lines = []) :
    Emits s lines {} (s.skipLabels n)
  /-- An expression whose register is given back. -/
  | expr {s : Session} {e : Expr} {a : Emission Scratch Register}
    (h : lowerExpr s.symbols e s.scratch = .ok a) :
    Emits s a.lines { literals := e.literals } (s.afterExpr a)
  /-- A variable, whose initial value may be stored. -/
  | var {s : Session} {scratch : Scratch} {pos : Position} {ty : Ty} {constant : Bool}
    {p : Emission Session Symbol} {x : String} {table : SymbolTable} {lines : List Line}
    (hp : place pos ty constant { s with scratch } = .ok p)
    (ht : s.symbols.declare x p.value = .ok table)
    (hlines : lines = [] ∨ ∃ address r, storeAddress? x p.value = some address ∧
      lines = [.instruction (.mov address (Operand.register r))]) :
    Emits s lines { vars := [x] } ⟨s.scratch, table, p.state.frame⟩
  /-- A function without a body. -/
  | prototype {s : Session} {head : Signature} {table : SymbolTable} (hf : s.frame = none)
    (ht : s.symbols.declare head.name (functionSymbol head false) = .ok table) :
    Emits s [] { prototypes := [head.name] } { s with symbols := table }
  | append {s t u : Session} {lines lines' : List Line} {c c' : Contents} (h : Emits s lines c t)
    (h' : Emits t lines' c' u) : Emits s (lines ++ lines') (c ++ c') u
  /-- A block inside a function. -/
  | block {s t : Session} {lines : List Line} {c : Contents} (hf : s.frame.isSome = true)
    (h : Emits { s with symbols := s.symbols.openScope } lines c t) :
    Emits s lines c { t with symbols := t.symbols.closeScope }
  /-- A function with its body. -/
  | function {s t : Session} {pos : Position} {head : Signature} {table : SymbolTable}
    {p : Emission Session Unit} {reserve : List Instruction} {lines : List Line} {c : Contents}
    (hf : s.frame = none) (ht : s.symbols.declare head.name (functionSymbol head true) = .ok table)
    (hp : declareParams pos head.name head.params
      ⟨s.scratch, table.openScope, some ⟨head.name, 0⟩⟩ = .ok p)
    (hreserve : reserve = [] ∨ ∃ bytes, reserve = reservation bytes)
    (h : Emits p.state lines c t) :
    Emits s ([.label head.name] ++ ((prologue ++ reserve).map .instruction ++ (lines ++
      epilogue.map .instruction))) ({ definitions := [head.name] } ++ c)
      ⟨t.scratch, t.symbols.closeAll, none⟩

namespace Emits

variable {s t : Session} {lines : List Line} {c : Contents} {depth : Nat}

/-- The symbol table stays valid, and as many scopes are open as before. -/
theorem valid (h : Emits s lines c t) : ∀ {depth : Nat}, s.Valid depth → t.Valid depth := by
  induction h with
  | code s n h => exact fun hs => ⟨hs.symbols, hs.frame⟩
  | expr h => exact fun hs => ⟨hs.symbols, hs.frame⟩
  | var hp ht hlines =>
    intro depth hs
    obtain ⟨hkind, hframe⟩ := place_isGlobal hp
    exact ⟨hs.symbols.declare (hkind.trans hs.frame) ht, hframe.trans hs.frame⟩
  | prototype hf ht =>
    intro depth hs
    exact ⟨hs.symbols.declare (by simpa [functionSymbol, Symbol.isGlobal] using hs.frame.1 hf) ht,
      hs.frame⟩
  | append h h' ih ih' => exact fun hs => ih' (ih hs)
  | block hf h ih =>
    intro depth hs
    obtain ⟨hdepth, hopen⟩ := hs.openBlock hf
    have hdepths : depth + 1 = 0 ↔ depth = 0 := by omega
    exact ⟨(ih hopen).symbols.closeScope, (ih hopen).frame.trans hdepths⟩
  | function hf ht hp hreserve h ih =>
    intro depth hs
    obtain ⟨rfl, hparams, -⟩ := hs.enterFunction hf ht hp
    exact ⟨(ih hparams).symbols.closeAll, by simp⟩

/-- Inside a function one stays inside, and outside one stays outside. -/
theorem frame (h : Emits s lines c t) : t.frame = none ↔ s.frame = none := by
  induction h with
  | code s n h => rfl
  | expr h => rfl
  | var hp ht hlines => exact (place_isGlobal hp).2
  | prototype hf ht => rfl
  | append h h' ih ih' => exact ih'.trans ih
  | block hf h ih => exact ih
  | function hf ht hp hreserve h ih => simp [hf]

/-- Inside a function no other one is defined. -/
theorem definitions_eq_nil (h : Emits s lines c t) (hs : s.frame ≠ none) : c.definitions = [] := by
  induction h with
  | code s n h => rfl
  | expr h => rfl
  | var hp ht hlines => rfl
  | prototype hf ht => rfl
  | append h h' ih ih' =>
    rw [Contents.definitions_append, ih hs, ih' (mt h.frame.1 hs), List.nil_append]
  | block hf h ih => exact ih hs
  | function hf ht hp hreserve h ih => exact absurd hf hs

/-- All registers are given back. -/
theorem pool (h : Emits s lines c t) : t.scratch.pool = s.scratch.pool := by
  induction h with
  | code s n h => rfl
  | expr h => rfl
  | var hp ht hlines => rfl
  | prototype hf ht => rfl
  | append h h' ih ih' => exact ih'.trans ih
  | block hf h ih => exact ih
  | function hf ht hp hreserve h ih =>
    obtain ⟨-, hscratch, -⟩ := declareParams_ok hp
    rw [hscratch] at ih
    exact ih

/-- The texts of the string literals are added in order. -/
theorem strings (h : Emits s lines c t) : t.scratch.strings = s.scratch.strings ++ c.literals := by
  induction h with
  | code s n h => simp
  | expr h => exact lowerExpr_strings _ h
  | var hp ht hlines => simp
  | prototype hf ht => simp
  | append h h' ih ih' => rw [ih', ih, Contents.literals_append, List.append_assoc]
  | block hf h ih => exact ih
  | function hf ht hp hreserve h ih =>
    obtain ⟨-, hscratch, -⟩ := declareParams_ok hp
    rw [hscratch] at ih
    exact ih

/-- The declarations among the contents are added to the names of the file. -/
theorem grows (h : Emits s lines c t) : ∀ {depth : Nat}, s.Valid depth →
    s.symbols.globals.Grows c t.symbols.globals := by
  induction h with
  | code s n h => exact fun _ => .unchanged rfl
  | expr h => exact fun _ => .unchanged rfl
  | @var s scratch pos ty constant p x table lines hp ht hlines =>
    intro depth hs
    cases depth with
    | succ depth =>
      -- a local variable is no name of the file
      rw [hs.symbols.globals_declare ht]
      exact .unchanged rfl
    | zero =>
      obtain ⟨merged, -, hmerge, rfl⟩ := hs.symbols.declare_file ht
      have hstatic := place_of_none (s := { s with scratch }) (hs.frame.2 rfl) hp
      refine .insert hmerge (.inl (by simp)) ?_ ?_
      · simp [hstatic, Symbol.bodies]
      · simp [hstatic]
  | prototype hf ht =>
    intro depth hs
    have hdepth := hs.frame.1 hf
    subst hdepth
    obtain ⟨merged, -, hmerge, rfl⟩ := hs.symbols.declare_file ht
    exact .insert hmerge (.inr (.inl (by simp))) (by simp [functionSymbol, Symbol.bodies]) (by simp)
  | append h h' ih ih' => exact fun hs => (ih hs).trans (ih' (h.valid hs))
  | block hf h ih => exact fun hs => ih (hs.openBlock hf).2
  | @function s t pos head table p reserve lines c hf ht hp hreserve h ih =>
    intro depth hs
    obtain ⟨rfl, hparams, hglobals⟩ := hs.enterFunction hf ht hp
    obtain ⟨merged, -, hmerge, rfl⟩ := hs.symbols.declare_file ht
    have hdef : s.symbols.globals.Grows { definitions := [head.name] } p.state.symbols.globals := by
      rw [hglobals]
      refine .insert hmerge (.inr (.inr (by simp))) (fun y => ?_) (by simp [functionSymbol])
      simp [functionSymbol, Symbol.bodies, List.count_singleton]
    exact hdef.trans (ih hparams)

/-- Code behind the lines. -/
theorem appendCode (h : Emits s lines c t) (lines' : List Line) (hcode : referencesOf lines' = []) :
    Emits s (lines ++ lines') c t := by
  have hall := h.append (.code t 0 hcode)
  rw [Contents.append_empty] at hall
  exact hall

/-- Labels handed out and code in front of the lines. -/
theorem prependCode {n : Nat} (h : Emits (s.skipLabels n) lines c t) (lines' : List Line)
    (hcode : referencesOf lines' = []) : Emits s (lines' ++ lines) c t :=
  (Emits.code s n hcode).append h

/-- Only a variable of the file is stored to by its name. -/
theorem references_var {scratch : Scratch} {pos : Position} {ty : Ty} {constant : Bool}
    {p : Emission Session Symbol} {x : String} {table : SymbolTable}
    (hp : place pos ty constant { s with scratch } = .ok p)
    (ht : s.symbols.declare x p.value = .ok table)
    (hlines : lines = [] ∨ ∃ address r, storeAddress? x p.value = some address ∧
      lines = [.instruction (.mov address (Operand.register r))])
    (hs : s.Valid depth) (lo : Nat) :
    RefersTo (fun y => (table.globals.get? y).isSome = true) lo 0 lines := by
  rcases hlines with rfl | ⟨address, r, haddress, rfl⟩
  · exact .plain lo rfl
  · refine .of_names lo fun y hy => ?_
    simp only [referencesOf_instruction_cons, Instruction.references, Operand.reference?,
      references_storeAddress? haddress, Option.toList_none, referencesOf_nil,
      List.append_nil] at hy
    cases hglobal : p.value.isGlobal with
    | false => simp [hglobal] at hy
    | true =>
      rw [hglobal, if_pos rfl, List.mem_singleton] at hy
      subst hy
      have hdepth := hs.frame.1 ((place_isGlobal hp).1.1 hglobal)
      subst hdepth
      obtain ⟨merged, hx, -, rfl⟩ := hs.symbols.declare_file ht
      exact ⟨hx, by simp [Scope.get?_insert]⟩

/-- The lines refer to the string literals, each of them once and in order, and else to names of the
file. -/
theorem references (h : Emits s lines c t) : ∀ {depth : Nat}, s.Valid depth →
    RefersTo (fun x => (t.symbols.globals.get? x).isSome = true) s.scratch.strings.length
      c.literals.length lines := by
  induction h with
  | code s n h => exact fun _ => .plain _ h
  | expr h =>
    intro depth hs
    have hnames := lowerExpr_references (fun x hx => (hs.symbols.get?_globals hx).2) _ h
    exact hnames.mono fun x hx => (hs.symbols.get?_globals hx).1
  | var hp ht hlines => exact fun hs => references_var hp ht hlines hs _
  | prototype hf ht => exact fun _ => .plain _ rfl
  | append h h' ih ih' =>
    -- what the first lines name is still known behind the second
    intro depth hs
    have hlater := ih' (h.valid hs)
    rw [h.strings, List.length_append] at hlater
    rw [Contents.literals_append, List.length_append]
    exact ((ih hs).mono (h'.grows (h.valid hs)).kept).append hlater
  | block hf h ih => exact fun hs => ih (hs.openBlock hf).2
  | @function s t pos head table p reserve lines c hf ht hp hreserve h ih =>
    intro depth hs
    obtain ⟨-, hparams, -⟩ := hs.enterFunction hf ht hp
    obtain ⟨-, hscratch, -⟩ := declareParams_ok hp
    have hbody := ih hparams
    rw [hscratch] at hbody
    -- the frame is set up and taken down without a name
    have hentry : referencesOf ((prologue ++ reserve).map .instruction) = [] := by
      rcases hreserve with rfl | ⟨bytes, rfl⟩ <;> rfl
    exact (RefersTo.plain _ rfl).prepend
      ((RefersTo.plain _ hentry).prepend (hbody.append (.plain _ rfl)))

end Emits

namespace Lowering

variable {s : Session} {em : Emission Session Unit}

/-! ### Statements -/

theorem evaluateOption_emits {e : Option Expr} (h : evaluateOption e s = .ok em) :
    Emits s em.lines { literals := Expr.literals? e } em.state := by
  cases e with
  | none =>
    rw [evaluateOption_none_ok h]
    exact .code s 0 rfl
  | some e =>
    obtain ⟨a, ha, rfl⟩ := evaluateOnly_ok h
    exact .expr ha

theorem branch_emits {cond : Expr} {ok otherwise : String}
    (h : branch cond ok otherwise s = .ok em) :
    Emits s em.lines { literals := cond.literals } em.state := by
  obtain ⟨a, ha, rfl⟩ := branch_ok h
  exact (Emits.expr ha).appendCode _ rfl

theorem loopTest_emits {done : String} {cond : Option Expr} (h : loopTest done cond s = .ok em) :
    Emits s em.lines { literals := Expr.literals? cond } em.state := by
  cases cond with
  | none =>
    rw [Emitter.pure_eq_ok_iff.1 h]
    exact .code s 0 rfl
  | some cond =>
    have hbranch := branch_emits (loopTest_some_ok h)
    exact hbranch.prependCode [] rfl

theorem lowerLoop_emits {cond step : Option Expr} {body : Stmt}
    (hbody : ∀ {s : Session} {em : Emission Session Unit}, lowerStmt body s = .ok em →
      Emits s em.lines body.contents em.state)
    (h : lowerLoop cond step (lowerStmt body) s = .ok em) :
    Emits s em.lines ({ literals := Expr.literals? cond } ++ (body.contents ++
      { literals := Expr.literals? step })) em.state := by
  obtain ⟨t, b, u, ht, hb, hu, rfl⟩ := lowerLoop_ok h
  have hagain := (evaluateOption_emits hu).appendCode
    [.instruction (.jmp (flowLabel s.scratch.labels)),
     .label (flowLabel (s.scratch.labels + 1))] rfl
  have hparts := (loopTest_emits ht).append ((hbody hb).append hagain)
  exact hparts.prependCode [.label (flowLabel s.scratch.labels)] rfl

theorem lowerItems_emits_of {items : List Stmt}
    (hitems : ∀ item ∈ items, ∀ {s : Session} {em : Emission Session Unit},
      lowerStmt item s = .ok em → Emits s em.lines item.contents em.state) :
    ∀ {s : Session} {em : Emission Session Unit}, lowerItems items s = .ok em →
      Emits s em.lines (Stmt.contentsOfAll items) em.state := by
  induction items with
  | nil =>
    intro s em h
    rw [lowerItems_nil_ok h, Stmt.contentsOfAll_nil]
    exact .code s 0 rfl
  | cons item items ih =>
    intro s em h
    obtain ⟨a, b, ha, hb, rfl⟩ := lowerItems_cons_ok h
    rw [List.forall_mem_cons] at hitems
    rw [Stmt.contentsOfAll_cons]
    exact (hitems.1 ha).append (ih hitems.2 hb)

/-- Lowering a statement does nothing else to the session. -/
theorem lowerStmt_emits (stmt : Stmt) : ∀ {s : Session} {em : Emission Session Unit},
    lowerStmt stmt s = .ok em → Emits s em.lines stmt.contents em.state := by
  induction stmt using Stmt.induct with
  | var pos decl =>
    intro s em h
    rw [lowerStmt, Emitter.visit_apply] at h
    cases hinit : decl.init with
    | none =>
      obtain ⟨p, table, hp, ht, rfl⟩ := lowerVariable_none_ok hinit h
      rw [Stmt.contents, Stmt.literals, hinit]
      exact .var hp ht (.inl rfl)
    | some init =>
      obtain ⟨a, p, table, address, ha, hp, ht, haddress, rfl⟩ := lowerVariable_some_ok hinit h
      rw [Stmt.contents, Stmt.literals, hinit, Expr.literals?_some]
      have hstore := Emits.var (s := s.afterExpr a) hp ht (.inr ⟨address, a.value, haddress, rfl⟩)
      have hall := (Emits.expr ha).append hstore
      simp only [Contents.mk_append_mk, List.append_nil] at hall
      exact hall
  | prototype pos head =>
    intro s em h
    rw [lowerStmt, Emitter.visit_apply] at h
    obtain ⟨hf, table, ht, rfl⟩ := declareFunction_ok h
    exact .prototype hf ht
  | function pos head body ih =>
    intro s em h
    rw [lowerStmt_function_apply] at h
    obtain ⟨hf, table, p, b, reserve, ht, hp, hb, hreserve, rfl⟩ := lowerFunction_ok h
    have hbody := lowerItems_emits_of ih hb
    rw [Stmt.contentsOfAll_items] at hbody
    exact .function hf ht hp hreserve hbody
  | block pos items ih =>
    intro s em h
    rw [lowerStmt, Emitter.visit_apply] at h
    obtain ⟨hf, a, ha, rfl⟩ | ⟨-, ha⟩ := inScope_ok h
    · exact .block hf (lowerItems_emits_of ih ha)
    · exact lowerItems_emits_of ih ha
  | expr pos e =>
    intro s em h
    rw [lowerStmt, Emitter.visit_apply] at h
    obtain ⟨a, ha, rfl⟩ := evaluateOnly_ok h
    exact .expr ha
  | ifThen pos cond yes ih =>
    intro s em h
    obtain ⟨c, y, hc, hy, rfl⟩ := lowerStmt_ifThen_ok h
    have hparts := (branch_emits hc).append
      ((ih hy).appendCode [.label (flowLabel (s.scratch.labels + 1))] rfl)
    exact hparts.prependCode [] rfl
  | ifElse pos cond yes no ihy ihn =>
    intro s em h
    obtain ⟨c, y, z, hc, hy, hz, rfl⟩ := lowerStmt_ifElse_ok h
    have hno := ((ihn hz).appendCode [.label (flowLabel (s.scratch.labels + 2))] rfl).prependCode
      (n := 0) [.instruction (.jmp (flowLabel (s.scratch.labels + 2))),
        .label (flowLabel (s.scratch.labels + 1))] rfl
    have hparts := (branch_emits hc).append ((ihy hy).append hno)
    exact hparts.prependCode [] rfl
  | whileLoop pos cond body ih =>
    intro s em h
    rw [lowerStmt, Emitter.visit_apply] at h
    have hloop := lowerLoop_emits ih h
    rw [Expr.literals?_none, Contents.append_empty] at hloop
    exact hloop
  | forLoop pos init cond step body ih =>
    intro s em h
    obtain ⟨i, l, hi, hl, rfl⟩ := lowerStmt_forLoop_ok h
    have hall := (evaluateOption_emits hi).append (lowerLoop_emits ih hl)
    simp only [Stmt.contents, Contents.mk_append_mk, List.append_nil, List.nil_append] at hall
    exact hall
  | ret pos value =>
    intro s em h
    rw [lowerStmt, Emitter.visit_apply] at h
    cases value with
    | none =>
      obtain ⟨-, rfl⟩ := lowerReturn_none_ok h
      exact .code s 0 rfl
    | some e =>
      obtain ⟨-, a, ha, rfl⟩ := lowerReturn_some_ok h
      exact (Emits.expr ha).appendCode _ rfl

/-- Lowering statements does nothing else to the session. -/
theorem lowerItems_emits {items : List Stmt} {s : Session} {em : Emission Session Unit}
    (h : lowerItems items s = .ok em) : Emits s em.lines (Stmt.contentsOfAll items) em.state :=
  lowerItems_emits_of (fun item _ => lowerStmt_emits item) h

end Lowering

end WordC
