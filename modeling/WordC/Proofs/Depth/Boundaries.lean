import WordC.Proofs.Depth.Stmt
import WordC.Proofs.Registers.Lowering

/-!
# The depth of the stack where statements begin and end

In the history of lowering a program, the lines in front of the begin and of the end of a statement
rise by nothing: `lowerItems_level`.

* `Emitter.Plain`: there are only lines in the history;
* `Emitter.Level`: the lines of the history, and those up to a begin or an end in it, rise by
  nothing.
-/

namespace WordC

namespace Emitter

variable {σ α β : Type} {x : Emitter σ α}

/-! ### Histories of lines -/

/-- Nothing but lines is recorded. -/
abbrev Plain (x : Emitter σ α) : Prop := Records (fun m => m.line? ≠ none) x

theorem Records.emitLines (lines : List Line) : Plain (emitLines lines : Emitter σ Unit) := by
  intro pool s m hm
  obtain ⟨line, -, rfl⟩ := List.mem_map.1 hm
  simp

/-- Lines in front. -/
theorem Records.andThen {lines : List Line} {f : Unit → Emitter σ α} (hf : ∀ a, Plain (f a)) :
    Plain (Emitter.emitLines lines >>= f) :=
  .bind (.emitLines lines) hf

/-! ### Level histories -/

/-- The lines of the history rise by nothing, and neither do those in front of a begin or an end of
a statement. -/
structure IsLevel (history : List Moment) : Prop where
  lines : rise (history.filterMap Moment.line?) = 0
  bounds : ∀ before m after, history = before ++ m :: after → m.line? = none →
    rise (before.filterMap Moment.line?) = 0

namespace IsLevel

variable {history history' : List Moment}

theorem of_plain (h : ∀ m ∈ history, m.line? ≠ none)
    (hlines : rise (history.filterMap Moment.line?) = 0) : IsLevel history := by
  refine ⟨hlines, fun before m after hhistory hm => absurd hm (h m ?_)⟩
  rw [hhistory]
  exact List.mem_append_right _ List.mem_cons_self

theorem append (h : IsLevel history) (h' : IsLevel history') : IsLevel (history ++ history') := by
  refine ⟨by rw [List.filterMap_append, rise_append, h.lines, h'.lines, UInt16.add_zero], ?_⟩
  intro before m after hsplit hm
  rcases List.append_eq_append_iff.1 hsplit with ⟨rest, rfl, hrest⟩ | ⟨rest, rfl, hrest⟩
  · rw [List.filterMap_append, rise_append, h.lines, UInt16.zero_add]
    exact h'.bounds rest m after hrest hm
  · cases rest with
    | nil => simpa using h.lines
    | cons m' rest =>
      obtain ⟨rfl, -⟩ := List.cons.inj hrest
      exact h.bounds before _ rest rfl hm

theorem mark {m : Moment} (h : m.line? = none) : IsLevel [m] := by
  refine ⟨by simp [h], fun before m' after hsplit _ => ?_⟩
  cases before with
  | nil => rfl
  | cons _ before => simp at hsplit

end IsLevel

/-- What is recorded in a run that succeeds is level. -/
def Level (x : Emitter σ α) : Prop :=
  ∀ pool s out, (x.record pool s).outcome = .ok out → IsLevel (x.record pool s).history

namespace Level

/-- Only lines are recorded, and they rise by nothing. -/
theorem of_plain (h : Plain x) (hx : ∀ s em, x s = .ok em → rise em.lines = 0) : Level x :=
  fun pool s _ hout => .of_plain (h pool s) (hx s _ (run_of_outcome hout))

/-- Steps that emit nothing. -/
theorem silent (h : Silent x) : Level x := fun pool s _ _ => by
  rw [h.history_eq_nil pool s]
  exact .of_plain (fun _ hm => absurd hm List.not_mem_nil) rfl

theorem pure (a : α) : Level (Pure.pure a : Emitter σ α) := silent (.pure a)

theorem bind {f : α → Emitter σ β} (h : Level x) (hf : ∀ a, Level (f a)) : Level (x >>= f) := by
  intro pool s out hrun
  obtain ⟨first, hx, hout, hhistory⟩ := record_bind_ok hrun
  rw [hhistory]
  exact (h pool s first hx).append (hf first.1 pool first.2 out hout)

theorem ite {c : Prop} [Decidable c] {x' : Emitter σ α} (h : Level x) (h' : Level x') :
    Level (if c then x else x') := by
  split
  · exact h
  · exact h'

theorem visit {stmt : Stmt} {x : Emitter σ Unit} (h : Level x) : Level (visit stmt x) := by
  intro pool s out hrun
  obtain ⟨first, hx, hhistory⟩ := record_visit_ok hrun
  rw [hhistory]
  exact (IsLevel.mark rfl).append ((h pool s first hx).append (.mark rfl))

theorem behind {x y : Emitter σ Unit} (h : Level x) (h' : Level y) : Level (behind x y) := by
  intro pool s out hrun
  obtain ⟨first, hx, hout, hhistory⟩ := record_behind_ok hrun
  rw [hhistory]
  exact (h' pool first.2 out hout).append (h pool s first hx)

theorem emitLines {lines : List Line} (h : rise lines = 0) :
    Level (emitLines lines : Emitter σ Unit) := by
  refine of_plain (.emitLines lines) fun s em hem => ?_
  cases hem
  exact h

theorem jmp (name : String) : Level (emit (.jmp name) : Emitter σ Unit) := emitLines rfl

theorem emitLabel (name : String) : Level (emitLabel name : Emitter σ Unit) := emitLines rfl

end Level

end Emitter

namespace Lowering
open Emitter

/-! ### Expressions -/

theorem load_plain (pos : Position) (source : Operand) : Plain (load pos source) :=
  .bind (.change _) fun _ => .andThen fun _ => .pure _

theorem loadName_plain (table : SymbolTable) (pos : Position) (x : String) :
    Plain (loadName table pos x) :=
  .bind (.of_silent (resolve_silent table x)) fun _ => .bind (.change _) fun _ => .andThen fun _ =>
    .pure _

theorem store_plain {σ : Type} (pos : Position) (x : String) (symbol : Symbol) (r : Register) :
    Plain (store pos x symbol r : Emitter σ Unit) := by
  unfold store
  cases storeAddress? x symbol with
  | none => exact .change _
  | some address => exact .emitLines _

mutual

/-- Lowering an expression records nothing but lines. -/
theorem lowerExpr_plain {table : SymbolTable} : ∀ e : Expr, Plain (lowerExpr table e)
  | .number .. | .character .. | .bool .. => by
    rw [lowerExpr]
    exact load_plain _ _
  | .text .. => by
    rw [lowerExpr]
    exact .bind (.change _) fun _ => load_plain _ _
  | .name .. => by
    rw [lowerExpr]
    exact loadName_plain _ _ _
  | .assign _ target value => by
    rw [lowerExpr]
    cases target.place? with
    | none => exact .change _
    | some place =>
      cases place with
      | named pos x =>
        refine .bind (.of_silent (resolve_silent table x)) fun symbol => .ite (.change _) ?_
        exact .bind (lowerExpr_plain value) fun _ => .bind (store_plain _ _ _ _) fun _ => .pure _
      | pointee pos x =>
        refine .bind (loadName_plain table pos x) fun address => ?_
        refine .bind (lowerExpr_plain value) fun r => ?_
        exact .andThen fun _ => .bind (.change _) fun _ => .pure _
  | .logical pos op operands => by
    rw [lowerExpr_logical]
    refine .bind (.change _) fun done => .bind (.change _) fun r => .andThen fun _ => ?_
    refine .bind (lowerOperands_plain op operands done) fun _ => ?_
    exact .andThen fun _ => .andThen fun _ => .pure _
  | .binary _ op left right => by
    rw [lowerExpr]
    refine .bind (lowerExpr_plain left) fun a => .bind (lowerExpr_plain right) fun b => ?_
    exact .andThen fun _ => .bind (.change _) fun _ => .pure _
  | .unary pos op operand => by
    rw [lowerExpr]
    refine .bind (lowerExpr_plain operand) fun source => ?_
    rw [applyUnary_eq]
    exact .bind (.change _) fun _ => .andThen fun _ => .bind (.change _) fun _ => .pure _
  | .call pos callee args => by
    rw [lowerExpr]
    refine .bind (.change _) fun saved => .andThen fun _ => ?_
    refine .bind (lowerExpr_plain callee) fun target => ?_
    refine .bind (lowerArguments_plain args) fun _ => .andThen fun _ => ?_
    exact .bind (.change _) fun _ => .andThen fun _ => .andThen fun _ => load_plain _ _

theorem lowerOperands_plain {table : SymbolTable} : ∀ (op : LogicalOp) (es : List Expr)
    (done : String), Plain (lowerOperands table done op es)
  | .or, [], _ => by
    rw [lowerOperands, lowerOr]
    exact .pure _
  | .and, [], _ => by
    rw [lowerOperands, lowerAnd]
    exact .pure _
  | .or, e :: es, done => by
    rw [lowerOperands, lowerOr]
    refine .bind (lowerExpr_plain e) fun r => .andThen fun _ => .bind (.change _) fun _ => ?_
    exact lowerOperands_plain .or es done
  | .and, e :: es, done => by
    rw [lowerOperands, lowerAnd]
    refine .bind (.change _) fun ok => .bind (lowerExpr_plain e) fun r => .andThen fun _ => ?_
    refine .bind (.change _) fun _ => .andThen fun _ => .andThen fun _ => ?_
    exact lowerOperands_plain .and es done

theorem lowerArguments_plain {table : SymbolTable} : ∀ es : List Expr,
    Plain (lowerArguments table es)
  | [] => by
    rw [lowerArguments]
    exact .pure _
  | e :: es => by
    rw [lowerArguments]
    refine .bind (lowerExpr_plain e) fun r => .andThen fun _ => .bind (.change _) fun _ => ?_
    exact lowerArguments_plain es

end

theorem evaluate_plain (e : Expr) : Plain (evaluate e) :=
  .bind (.change _) fun _ => .focus (lowerExpr_plain e)

/-! ### Parts of statements -/

theorem evaluateOption_level (e : Option Expr) : Level (evaluateOption e) := by
  have hplain : Plain (evaluateOption e) := by
    cases e with
    | none => exact .pure _
    | some e => exact .bind (evaluate_plain e) fun r => .of_silent (release_silent r)
  refine .of_plain hplain fun s em h => ?_
  simpa using (evaluateOption_settles h).leads.ends

theorem branch_level (cond : Expr) (ok otherwise : String) : Level (branch cond ok otherwise) := by
  have hplain : Plain (branch cond ok otherwise) :=
    .bind (evaluate_plain cond) fun r => .andThen fun _ => .bind (.of_silent (release_silent r))
      fun _ => .andThen fun _ => .emitLines _
  refine .of_plain hplain fun s em h => ?_
  simpa using (branch_settles h (List.mem_singleton_self _)).leads.ends

theorem newLabel_level : Level (onScratch newLabel) := .silent newLabel_silent

theorem loopTest_level (done : String) (cond : Option Expr) : Level (loopTest done cond) := by
  cases cond with
  | none => exact .pure _
  | some cond => exact newLabel_level.bind fun ok => branch_level cond ok done

/-- A statement without statements in it. -/
theorem level_of_plain {stmt : Stmt} {x : Emitter Session Unit}
    (hstmt : lowerStmt stmt = visit stmt x) (h : Plain x) : Level (lowerStmt stmt) := by
  rw [hstmt]
  refine .visit (.of_plain h fun s em hem => ?_)
  rw [← visit_apply stmt, ← hstmt] at hem
  simpa using (lowerStmt_settles stmt hem).leads.ends

section Nested

variable {x : Emitter Session Unit}

theorem lowerFunction_level (h : Level x) (pos : Position) (head : Signature) :
    Level (lowerFunction pos head x) := by
  refine .bind (.silent (declareFunction_silent head true)) fun _ => ?_
  refine .bind (.behind (.bind (.silent (enterFunction_silent head)) fun _ => h) ?_)
    fun _ => .emitLines rfl
  -- what is reserved is known only together with the step that gives it
  refine .of_plain
    (.bind (.of_silent leaveFunction_silent) fun _ => .andThen fun _ => .emitLines _) ?_
  intro s em hem
  simp only [bind_eq_ok_iff, emitLabel_eq_ok_iff, emitCode_eq_ok_iff] at hem
  obtain ⟨r, _, hr, ⟨_, _, rfl, rfl, rfl⟩, rfl⟩ := hem
  obtain ⟨hreserve, hlines, -⟩ := leaveFunction_ok hr
  have hall : Leads [] 0 ([.label head.name] ++ (prologue ++ r.value).map .instruction) 0 :=
    (Leads.label head.name).append (.frameCode (.of_reserve hreserve))
  simpa [hlines] using hall.ends

theorem inScope_level (h : Level x) : Level (inScope x) := by
  have hsymbols (f : SymbolTable → SymbolTable) : Level (onSymbols f) := .silent (.change _)
  refine .bind (.silent (.change _)) fun session => ?_
  exact .ite ((hsymbols _).bind fun _ => h.bind fun _ => hsymbols _) h

theorem lowerLoop_level (h : Level x) (cond step : Option Expr) :
    Level (lowerLoop cond step x) := by
  refine newLabel_level.bind fun top => newLabel_level.bind fun done => ?_
  refine (Level.emitLabel top).bind fun _ => (loopTest_level done cond).bind fun _ => ?_
  refine h.bind fun _ => (evaluateOption_level step).bind fun _ => ?_
  exact (Level.jmp top).bind fun _ => .emitLabel done

end Nested

theorem lowerItems_level_of {items : List Stmt} (h : ∀ item ∈ items, Level (lowerStmt item)) :
    Level (lowerItems items) := by
  induction items with
  | nil =>
    rw [lowerItems]
    exact .pure _
  | cons item items ih =>
    rw [List.forall_mem_cons] at h
    rw [lowerItems]
    exact h.1.bind fun _ => ih h.2

theorem lowerBody_level {body : Stmt} (h : ∀ item ∈ body.items, Level (lowerStmt item)) :
    Level (lowerBody body) := by
  obtain ⟨pos, items, rfl⟩ | ⟨hitems, hbody⟩ := lowerBody_cases body
  · exact lowerItems_level_of h
  · rw [hbody]
    exact h body (hitems ▸ List.mem_singleton_self body)

/-- The history of a statement is level. -/
theorem lowerStmt_level (stmt : Stmt) : Level (lowerStmt stmt) := by
  induction stmt using Stmt.induct with
  | var pos decl =>
    refine level_of_plain (by rw [lowerStmt]) ?_
    unfold lowerVariable
    cases decl.init with
    | none =>
      exact .of_silent (.bind (place_silent _ _) fun _ => declare_silent _ _)
    | some init =>
      refine .bind (evaluate_plain init) fun r => ?_
      refine .bind (.of_silent (place_silent _ _)) fun symbol => ?_
      refine .bind (.of_silent (declare_silent _ _)) fun _ => ?_
      exact .bind (store_plain _ _ _ _) fun _ => .of_silent (release_silent r)
  | prototype pos head =>
    rw [lowerStmt]
    exact .visit (.silent (declareFunction_silent head false))
  | function pos head body ih =>
    rw [lowerStmt_function]
    exact .visit (lowerFunction_level (lowerBody_level ih) pos head)
  | block pos items ih =>
    rw [lowerStmt]
    exact .visit (inScope_level (lowerItems_level_of ih))
  | expr pos e =>
    rw [lowerStmt]
    exact .visit (evaluateOption_level (some e))
  | ifThen pos cond yes ih =>
    rw [lowerStmt]
    refine .visit (newLabel_level.bind fun ok => newLabel_level.bind fun done => ?_)
    exact (branch_level cond ok done).bind fun _ => ih.bind fun _ => .emitLabel done
  | ifElse pos cond yes no ihyes ihno =>
    rw [lowerStmt]
    refine .visit (newLabel_level.bind fun ok => newLabel_level.bind fun otherwise => ?_)
    refine newLabel_level.bind fun done => (branch_level cond ok otherwise).bind fun _ => ?_
    refine ihyes.bind fun _ => (Level.jmp done).bind fun _ => ?_
    exact (Level.emitLabel otherwise).bind fun _ => ihno.bind fun _ => .emitLabel done
  | whileLoop pos cond body ih =>
    rw [lowerStmt]
    exact .visit (lowerLoop_level ih (some cond) none)
  | forLoop pos init cond step body ih =>
    rw [lowerStmt]
    exact .visit ((evaluateOption_level init).bind fun _ => lowerLoop_level ih cond step)
  | ret pos value =>
    refine level_of_plain (by rw [lowerStmt]) ?_
    refine .bind (.change _) fun session => .ite (.change _) ?_
    cases value with
    | none => exact .emitLines _
    | some e =>
      refine .bind (evaluate_plain e) fun r => .andThen fun _ => ?_
      exact .bind (.of_silent (release_silent r)) fun _ => .emitLines _

/-- The history of a program is level. -/
theorem lowerItems_level (items : List Stmt) : Level (lowerItems items) :=
  lowerItems_level_of fun item _ => lowerStmt_level item

end Lowering

end WordC
