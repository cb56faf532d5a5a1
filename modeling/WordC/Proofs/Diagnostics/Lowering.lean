import WordC.Proofs.Diagnostics.Places
import WordC.Proofs.Lowering.Stmt
import WordC.Proofs.WellFormed.Expr

/-!
# Where lowering reports faults

`Emitter.FailsAt places x`: the emitter `x` reports only at the given places, whatever state it
works on. Lowering reports at the positions that the tree has: `Listing.ofProgram_error_mem`.
-/

namespace WordC

namespace Emitter

variable {σ τ α β : Type} {places : List Position} {x : Emitter σ α} {pos : Position}

/-- The emitter reports at one of the places, if it fails. -/
def FailsAt (places : List Position) (x : Emitter σ α) : Prop :=
  ∀ s d, x s = .error d → d.pos ∈ places

namespace FailsAt

/-- An emitter that always succeeds. -/
theorem total (h : ∀ s, ∃ em, x s = .ok em) : FailsAt places x := by
  intro s d hfail
  obtain ⟨em, hem⟩ := h s
  rw [hem] at hfail
  cases hfail

theorem pure (a : α) : FailsAt places (Pure.pure a : Emitter σ α) := total fun _ => ⟨_, rfl⟩

theorem get : FailsAt places (Emitter.get : Emitter σ σ) := total fun _ => ⟨_, rfl⟩

theorem modify (f : σ → σ) : FailsAt places (Emitter.modify f) := total fun _ => ⟨_, rfl⟩

theorem emitLines (lines : List Line) : FailsAt places (Emitter.emitLines lines : Emitter σ Unit) :=
  total fun _ => ⟨_, rfl⟩

theorem bind {f : α → Emitter σ β} (h : FailsAt places x) (hf : ∀ a, FailsAt places (f a)) :
    FailsAt places (x >>= f) := by
  intro s d hfail
  rcases bind_eq_error_iff.1 hfail with hx | ⟨first, -, hrest⟩
  · exact h s d hx
  · exact hf first.value first.state d hrest

theorem fail (hpos : pos ∈ places) (cause : Cause) :
    FailsAt places (Emitter.fail pos cause : Emitter σ α) := by
  intro s d hfail
  cases hfail
  exact hpos

theorem ofExcept (hpos : pos ∈ places) (result : Except Cause α) :
    FailsAt places (Emitter.ofExcept pos result : Emitter σ α) := by
  intro s d hfail
  cases result with
  | ok a => cases hfail
  | error cause =>
    cases hfail
    exact hpos

theorem ite {c : Prop} [Decidable c] {y : Emitter σ α} (hx : FailsAt places x)
    (hy : FailsAt places y) : FailsAt places (if c then x else y) := by
  split
  · exact hx
  · exact hy

theorem visit {stmt : Stmt} {x : Emitter σ Unit} (h : FailsAt places x) :
    FailsAt places (Emitter.visit stmt x) := h

theorem behind {x y : Emitter σ Unit} (h : FailsAt places x) (h' : FailsAt places y) :
    FailsAt places (Emitter.behind x y) := by
  intro s d hfail
  rw [behind_apply] at hfail
  cases hx : x s with
  | error d' =>
    rw [hx] at hfail
    cases hfail
    exact h _ _ hx
  | ok back =>
    cases hy : y back.state with
    | ok front => simp [hx, hy] at hfail
    | error d' =>
      simp only [hx, hy] at hfail
      cases hfail
      exact h' _ _ hy

theorem focus {part : τ → σ} {put : σ → τ → τ} (h : FailsAt places x) :
    FailsAt places (Emitter.focus part put x) := by
  intro t d hfail
  rw [focus_apply] at hfail
  cases hx : x (part t) with
  | ok em =>
    rw [hx] at hfail
    cases hfail
  | error d' =>
    rw [hx] at hfail
    cases hfail
    exact h _ _ hx

end FailsAt

end Emitter

namespace Lowering
open Emitter

variable {places : List Position} {pos : Position} {table : SymbolTable}

/-! ### Expressions -/

theorem alloc_failsAt (hpos : pos ∈ places) : FailsAt places (alloc pos) := by
  intro s d hfail
  rw [alloc_apply] at hfail
  cases hpool : s.pool.alloc? with
  | some pair =>
    rw [hpool] at hfail
    cases hfail
  | none =>
    rw [hpool] at hfail
    cases hfail
    exact hpos

theorem load_failsAt (hpos : pos ∈ places) (source : Operand) :
    FailsAt places (load pos source) :=
  .bind (alloc_failsAt hpos) fun _ => .bind (.emitLines _) fun _ => .pure _

theorem resolve_failsAt {σ : Type} (hpos : pos ∈ places) (x : String) :
    FailsAt places (resolve table pos x : Emitter σ Symbol) := by
  unfold resolve
  cases table.lookup x with
  | some symbol => exact .pure symbol
  | none => exact .fail hpos _

theorem loadName_failsAt (hpos : pos ∈ places) (x : String) :
    FailsAt places (loadName table pos x) :=
  .bind (resolve_failsAt hpos x) fun _ => .bind (alloc_failsAt hpos) fun _ =>
    .bind (.emitLines _) fun _ => .pure _

theorem store_failsAt {σ : Type} (hpos : pos ∈ places) (x : String) (symbol : Symbol)
    (r : Register) : FailsAt places (store pos x symbol r : Emitter σ Unit) := by
  unfold store
  cases storeAddress? x symbol with
  | some address => exact .emitLines _
  | none => exact .fail hpos _

theorem applyUnary_failsAt (hpos : pos ∈ places) (op : UnaryOp) (source : Register) :
    FailsAt places (applyUnary pos op source) := by
  refine .bind (alloc_failsAt hpos) fun r => ?_
  cases op <;> exact .bind (.emitLines _) fun _ => .bind (.modify _) fun _ => .pure _

mutual

/-- Lowering an expression fails at one of the positions in it. -/
theorem lowerExpr_failsAt : ∀ (e : Expr), e.positions ⊆ places →
    FailsAt places (lowerExpr table e)
  | .number .., h | .character .., h | .bool .., h => by
    rw [Expr.positions, List.cons_subset] at h
    rw [lowerExpr]
    exact load_failsAt h.1 _
  | .text .., h => by
    rw [Expr.positions, List.cons_subset] at h
    rw [lowerExpr]
    exact .bind (.total fun _ => ⟨_, rfl⟩) fun _ => load_failsAt h.1 _
  | .name .., h => by
    rw [Expr.positions, List.cons_subset] at h
    rw [lowerExpr]
    exact loadName_failsAt h.1 _
  | .assign _ target value, h => by
    rw [Expr.positions, List.cons_subset, List.append_subset] at h
    obtain ⟨-, htarget, hvalue⟩ := h
    rw [lowerExpr]
    cases hplace : target.place? with
    | none => exact .fail (htarget target.pos_mem_positions) _
    | some place =>
      cases place with
      | named pos x =>
        obtain rfl := Expr.eq_name_of_place? hplace
        have hpos : pos ∈ places := htarget (by simp [Expr.positions])
        refine .bind (resolve_failsAt hpos x) fun symbol => .ite (.fail hpos _) ?_
        refine .bind (lowerExpr_failsAt value hvalue) fun r => ?_
        exact .bind (store_failsAt hpos x symbol r) fun _ => .pure r
      | pointee pos x =>
        obtain ⟨pos', rfl⟩ := Expr.eq_deref_of_place? hplace
        have hpos : pos ∈ places := htarget (by simp [Expr.positions])
        refine .bind (loadName_failsAt hpos x) fun address => ?_
        refine .bind (lowerExpr_failsAt value hvalue) fun r => ?_
        exact .bind (.emitLines _) fun _ => .bind (.modify _) fun _ => .pure r
  | .logical pos op operands, h => by
    rw [Expr.positions, List.cons_subset] at h
    rw [lowerExpr]
    refine .bind (.total fun _ => ⟨_, rfl⟩) fun done => .bind (alloc_failsAt h.1) fun r => ?_
    have hend : FailsAt places (do
        emitLabel done
        pure r : Emitter Scratch Register) := .bind (.emitLines _) fun _ => .pure r
    have hoperands := lowerOperands_failsAt op operands h.2 done
    cases op with
    | or =>
      exact .bind (.emitLines _) fun _ => .bind hoperands fun _ =>
        .bind (.emitLines _) fun _ => hend
    | and =>
      exact .bind (.emitLines _) fun _ => .bind hoperands fun _ =>
        .bind (.emitLines _) fun _ => hend
  | .binary _ op left right, h => by
    rw [Expr.positions, List.cons_subset, List.append_subset] at h
    rw [lowerExpr]
    refine .bind (lowerExpr_failsAt left h.2.1) fun a => ?_
    refine .bind (lowerExpr_failsAt right h.2.2) fun b => ?_
    exact .bind (.emitLines _) fun _ => .bind (.modify _) fun _ => .pure a
  | .unary pos op operand, h => by
    rw [Expr.positions, List.cons_subset] at h
    rw [lowerExpr]
    refine .bind (lowerExpr_failsAt operand h.2) fun source => ?_
    exact applyUnary_failsAt h.1 op source
  | .call pos callee args, h => by
    rw [Expr.positions, List.cons_subset, List.append_subset] at h
    rw [lowerExpr]
    refine .bind (.total fun _ => ⟨_, rfl⟩) fun saved => .bind (.emitLines _) fun _ => ?_
    refine .bind (lowerExpr_failsAt callee h.2.1) fun target => ?_
    refine .bind (lowerArguments_failsAt args h.2.2) fun _ => .bind (.emitLines _) fun _ => ?_
    refine .bind (.modify _) fun _ => .bind (.emitLines _) fun _ => ?_
    exact .bind (.emitLines _) fun _ => load_failsAt h.1 _

theorem lowerOperands_failsAt : ∀ (op : LogicalOp) (es : List Expr),
    Expr.positionsOfAll es ⊆ places → ∀ done : String,
    FailsAt places (lowerOperands table done op es)
  | .or, [], _, _ | .and, [], _, _ => .total fun _ => ⟨_, rfl⟩
  | .or, e :: es, h, done => by
    rw [Expr.positionsOfAll, List.append_subset] at h
    rw [lowerOperands, lowerOr]
    refine .bind (lowerExpr_failsAt e h.1) fun r => ?_
    refine .bind (.emitLines _) fun _ => .bind (.modify _) fun _ => ?_
    exact lowerOperands_failsAt .or es h.2 done
  | .and, e :: es, h, done => by
    rw [Expr.positionsOfAll, List.append_subset] at h
    rw [lowerOperands, lowerAnd]
    refine .bind (.total fun _ => ⟨_, rfl⟩) fun ok => .bind (lowerExpr_failsAt e h.1) fun r => ?_
    refine .bind (.emitLines _) fun _ => .bind (.modify _) fun _ => ?_
    refine .bind (.emitLines _) fun _ => .bind (.emitLines _) fun _ => ?_
    exact lowerOperands_failsAt .and es h.2 done

theorem lowerArguments_failsAt : ∀ (es : List Expr), Expr.positionsOfAll es ⊆ places →
    FailsAt places (lowerArguments table es)
  | [], _ => .total fun _ => ⟨_, rfl⟩
  | e :: es, h => by
    rw [Expr.positionsOfAll, List.append_subset] at h
    rw [lowerArguments]
    refine .bind (lowerExpr_failsAt e h.1) fun r => ?_
    refine .bind (.emitLines _) fun _ => .bind (.modify _) fun _ => ?_
    exact lowerArguments_failsAt es h.2

end

theorem evaluate_failsAt {e : Expr} (h : e.positions ⊆ places) : FailsAt places (evaluate e) :=
  .bind .get fun _ => .focus (lowerExpr_failsAt e h)

theorem evaluateOnly_failsAt {e : Expr} (h : e.positions ⊆ places) :
    FailsAt places (evaluateOnly e) :=
  .bind (evaluate_failsAt h) fun _ => .focus (.modify _)

theorem evaluateOption_failsAt {e : Option Expr} (h : Expr.positions? e ⊆ places) :
    FailsAt places (evaluateOption e) := by
  cases e with
  | none => exact .pure ()
  | some e => exact evaluateOnly_failsAt h

/-! ### Declarations -/

theorem declare_failsAt (hpos : pos ∈ places) (x : String) (symbol : Symbol) :
    FailsAt places (declare pos x symbol) :=
  .bind .get fun _ => .bind (.ofExcept hpos _) fun _ => .modify _

theorem place_failsAt (hpos : pos ∈ places) (ty : Ty) (constant : Bool) :
    FailsAt places (place pos ty constant) := by
  refine .bind .get fun session => ?_
  cases session.frame with
  | none => exact .pure _
  | some frame =>
    dsimp only
    cases Frame.bytes? { frame with words := frame.words + ty.words } with
    | none => exact .fail hpos _
    | some bytes => exact .bind (.modify _) fun _ => .pure _

theorem lowerVariable_failsAt (hpos : pos ∈ places) {decl : Variable}
    (h : Expr.positions? decl.init ⊆ places) : FailsAt places (lowerVariable pos decl) := by
  unfold lowerVariable
  cases hinit : decl.init with
  | none => exact .bind (place_failsAt hpos _ _) fun symbol => declare_failsAt hpos _ symbol
  | some init =>
    rw [hinit] at h
    refine .bind (evaluate_failsAt h) fun r => .bind (place_failsAt hpos _ _) fun symbol => ?_
    refine .bind (declare_failsAt hpos _ symbol) fun _ => ?_
    exact .bind (store_failsAt hpos _ symbol r) fun _ => .focus (.modify _)

theorem declareParams_failsAt (hpos : pos ∈ places) (function : String) :
    ∀ params : List Param, FailsAt places (declareParams pos function params)
  | [] => .pure ()
  | param :: params => by
    rw [declareParams]
    cases paramOffset? (params.length + 1) with
    | none => exact .fail hpos _
    | some offset =>
      exact .bind (declare_failsAt hpos _ _) fun _ => declareParams_failsAt hpos function params

theorem declareFunction_failsAt (hpos : pos ∈ places) (head : Signature) (defined : Bool) :
    FailsAt places (declareFunction pos head defined) :=
  .bind .get fun _ => .ite (.fail hpos _) (declare_failsAt hpos _ _)

theorem leaveFunction_failsAt (hpos : pos ∈ places) : FailsAt places (leaveFunction pos) := by
  refine .bind .get fun session => .bind (.modify _) fun _ => ?_
  cases session.frame with
  | none => exact .pure []
  | some frame =>
    refine .ite (.pure []) ?_
    cases frame.bytes? with
    | some bytes => exact .pure _
    | none => exact .fail hpos _

theorem lowerFunction_failsAt (hpos : pos ∈ places) (head : Signature)
    {body : Emitter Session Unit} (h : FailsAt places body) :
    FailsAt places (lowerFunction pos head body) := by
  have henter : FailsAt places (enterFunction pos head) :=
    .bind (.modify _) fun _ => .bind (.modify _) fun _ => declareParams_failsAt hpos _ _
  refine .bind (declareFunction_failsAt hpos head true) fun _ => ?_
  refine .bind (.behind (.bind henter fun _ => h) ?_) fun _ => .emitLines _
  refine .bind (leaveFunction_failsAt hpos) fun reserve => ?_
  exact .bind (.emitLines _) fun _ => .emitLines _

/-! ### Statements -/

theorem newLabel_failsAt : FailsAt places (onScratch newLabel) := .focus (.total fun _ => ⟨_, rfl⟩)

theorem branch_failsAt {cond : Expr} (h : cond.positions ⊆ places) (ok otherwise : String) :
    FailsAt places (branch cond ok otherwise) := by
  refine .bind (evaluate_failsAt h) fun r => .bind (.emitLines _) fun _ => ?_
  exact .bind (.focus (.modify _)) fun _ => .bind (.emitLines _) fun _ => .emitLines _

theorem lowerLoop_failsAt {cond step : Option Expr} {body : Emitter Session Unit}
    (hcond : Expr.positions? cond ⊆ places) (hstep : Expr.positions? step ⊆ places)
    (hbody : FailsAt places body) : FailsAt places (lowerLoop cond step body) := by
  refine .bind newLabel_failsAt fun top => .bind newLabel_failsAt fun done => ?_
  have htest : FailsAt places (loopTest done cond) := by
    cases cond with
    | none => exact .pure ()
    | some cond => exact .bind newLabel_failsAt fun ok => branch_failsAt hcond ok done
  refine .bind (.emitLines _) fun _ => .bind htest fun _ => .bind hbody fun _ => ?_
  refine .bind (evaluateOption_failsAt hstep) fun _ => ?_
  exact .bind (.emitLines _) fun _ => .emitLines _

theorem inScope_failsAt {x : Emitter Session Unit} (h : FailsAt places x) :
    FailsAt places (inScope x) :=
  .bind .get fun _ => .ite (.bind (.modify _) fun _ => .bind h fun _ => .modify _) h

theorem lowerReturn_failsAt (hpos : pos ∈ places) {value : Option Expr}
    (h : Expr.positions? value ⊆ places) : FailsAt places (lowerReturn pos value) := by
  refine .bind .get fun session => .ite (.fail hpos _) ?_
  cases value with
  | none => exact .emitLines _
  | some e =>
    refine .bind (evaluate_failsAt h) fun r => .bind (.emitLines _) fun _ => ?_
    exact .bind (.focus (.modify _)) fun _ => .emitLines _

theorem lowerItems_failsAt {items : List Stmt}
    (h : ∀ item ∈ items, item.positions ⊆ places → FailsAt places (lowerStmt item))
    (hitems : Stmt.positionsOfAll items ⊆ places) : FailsAt places (lowerItems items) := by
  induction items with
  | nil =>
    rw [lowerItems]
    exact .pure ()
  | cons item items ih =>
    rw [List.forall_mem_cons] at h
    rw [Stmt.positionsOfAll, List.append_subset] at hitems
    rw [lowerItems]
    exact .bind (h.1 hitems.1) fun _ => ih h.2 hitems.2

theorem lowerBody_failsAt {body : Stmt}
    (h : ∀ item ∈ body.items, item.positions ⊆ places → FailsAt places (lowerStmt item))
    (hbody : body.positions ⊆ places) : FailsAt places (lowerBody body) := by
  intro s d hfail
  rw [lowerBody_apply] at hfail
  have hitems := List.Subset.trans body.positionsOfAll_items_subset hbody
  exact lowerItems_failsAt h hitems s d hfail

/-- Lowering a statement fails at one of the positions in it. -/
theorem lowerStmt_failsAt (stmt : Stmt) :
    stmt.positions ⊆ places → FailsAt places (lowerStmt stmt) := by
  induction stmt using Stmt.induct with
  | var pos decl =>
    intro h
    rw [Stmt.positions, List.cons_subset] at h
    rw [lowerStmt]
    exact .visit (lowerVariable_failsAt h.1 h.2)
  | prototype pos head =>
    intro h
    rw [Stmt.positions, List.cons_subset] at h
    rw [lowerStmt]
    exact .visit (declareFunction_failsAt h.1 head false)
  | function pos head body ih =>
    intro h
    rw [Stmt.positions, List.cons_subset] at h
    rw [lowerStmt_function]
    exact .visit (lowerFunction_failsAt h.1 head (lowerBody_failsAt ih h.2))
  | block pos items ih =>
    intro h
    rw [Stmt.positions, List.cons_subset] at h
    rw [lowerStmt]
    exact .visit (inScope_failsAt (lowerItems_failsAt ih h.2))
  | expr pos e =>
    intro h
    rw [Stmt.positions, List.cons_subset] at h
    rw [lowerStmt]
    exact .visit (evaluateOnly_failsAt h.2)
  | ifThen pos cond yes ih =>
    intro h
    rw [Stmt.positions, List.cons_subset, List.append_subset] at h
    rw [lowerStmt]
    refine .visit (.bind newLabel_failsAt fun ok => .bind newLabel_failsAt fun done => ?_)
    refine .bind (branch_failsAt h.2.1 ok done) fun _ => .bind (ih h.2.2) fun _ => .emitLines _
  | ifElse pos cond yes no ihyes ihno =>
    intro h
    rw [Stmt.positions, List.cons_subset, List.append_subset, List.append_subset] at h
    rw [lowerStmt]
    refine .visit (.bind newLabel_failsAt fun ok => .bind newLabel_failsAt fun otherwise => ?_)
    refine .bind newLabel_failsAt fun done => .bind (branch_failsAt h.2.1 ok otherwise) fun _ => ?_
    refine .bind (ihyes h.2.2.1) fun _ => .bind (.emitLines _) fun _ => ?_
    exact .bind (.emitLines _) fun _ => .bind (ihno h.2.2.2) fun _ => .emitLines _
  | whileLoop pos cond body ih =>
    intro h
    rw [Stmt.positions, List.cons_subset, List.append_subset] at h
    rw [lowerStmt]
    exact .visit (lowerLoop_failsAt h.2.1 (List.nil_subset _) (ih h.2.2))
  | forLoop pos init cond step body ih =>
    intro h
    rw [Stmt.positions, List.cons_subset, List.append_subset, List.append_subset,
      List.append_subset] at h
    obtain ⟨-, hinit, hcond, hstep, hbody⟩ := h
    rw [lowerStmt]
    refine .visit (.bind (evaluateOption_failsAt hinit) fun _ => ?_)
    exact lowerLoop_failsAt hcond hstep (ih hbody)
  | ret pos value =>
    intro h
    rw [Stmt.positions, List.cons_subset] at h
    rw [lowerStmt]
    exact .visit (lowerReturn_failsAt h.1 h.2)

end Lowering

/-- A program that is not lowered is reported at one of the positions in it. -/
theorem Listing.ofProgram_error_mem {file : String} {program : Program} {d : Diagnostic}
    (h : Listing.ofProgram file program = .error d) : d.pos ∈ Stmt.positionsOfAll program := by
  rw [ofProgram] at h
  cases hlower : Lowering.lowerItems program .empty with
  | ok em =>
    rw [hlower] at h
    cases h
  | error d' =>
    rw [hlower] at h
    cases h
    exact Lowering.lowerItems_failsAt (fun item _ => Lowering.lowerStmt_failsAt item)
      (List.Subset.refl _) _ _ hlower

end WordC
