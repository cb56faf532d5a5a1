import WordC.Proofs.Labels.Program
import WordC.Proofs.Lowering.Stmt
import WordC.Proofs.Machine.Run

/-!
# Calls in a listing

Wherever a call stands in a program, its lines stand in the listing of the program
(`Listing.ofProgram_calls`). The proof goes down the tree with the place of the lines of the whole:
the lines of a part are a stretch of those of the whole, so they have a place, too.
-/

namespace WordC

open Lowering

/-- The lines of an expression, lowered in some scope, stand somewhere in the listing. -/
def LoweredIn (lines : List Line) (e : Expr) : Prop :=
  ∃ table s em pos, lowerExpr table e s = .ok em ∧ CodeAt lines pos em.lines

namespace Lowering

variable {lines : List Line} {table : SymbolTable}

/-! ### Expressions -/

mutual

theorem lowerExpr_calls : ∀ (e : Expr) {s : Scratch} {em : Emission Scratch Register} {pos : Nat},
    lowerExpr table e s = .ok em → CodeAt lines pos em.lines →
    ∀ call ∈ e.calls, LoweredIn lines call
  | .number .., _, _, _, _, _ | .character .., _, _, _, _, _ | .bool .., _, _, _, _, _
  | .text .., _, _, _, _, _ | .name .., _, _, _, _, _ => by simp [Expr.calls]
  | .assign _ target value, _, _, _, h, hcode => by
    obtain ⟨place, hp⟩ := lowerExpr_assign_ok h
    rw [Expr.calls, Expr.calls_of_place? hp, List.nil_append]
    cases place with
    | named at_ x =>
      obtain ⟨symbol, address, a, -, -, ha, rfl⟩ := lowerExpr_assign_named_ok hp h
      exact lowerExpr_calls value ha hcode.left
    | pointee at_ x =>
      obtain ⟨a, b, -, hb, rfl⟩ := lowerExpr_assign_pointee_ok hp h
      exact lowerExpr_calls value hb hcode.right.left
  | .binary _ _ left right, _, _, _, h, hcode => by
    obtain ⟨a, b, ha, hb, rfl⟩ := lowerExpr_binary_ok h
    rw [Expr.calls, List.forall_mem_append]
    exact ⟨lowerExpr_calls left ha hcode.left, lowerExpr_calls right hb hcode.right.left⟩
  | .unary _ _ operand, _, _, _, h, hcode => by
    obtain ⟨a, i, ha, -, rfl⟩ := lowerExpr_unary_ok h
    rw [Expr.calls]
    exact lowerExpr_calls operand ha hcode.left
  | .logical _ op operands, _, _, _, h, hcode => by
    obtain ⟨i, c, -, hc, rfl⟩ := lowerExpr_logical_ok h
    rw [Expr.calls]
    exact lowerOperands_calls op operands hc hcode.right.left
  | .call at_ callee args, _, em, pos, h, hcode => by
    have hself : LoweredIn lines (.call at_ callee args) := ⟨table, _, em, pos, h, hcode⟩
    obtain ⟨a, c, i, ha, hc, -, rfl⟩ := lowerExpr_call_ok h
    rw [Expr.calls, List.forall_mem_cons, List.forall_mem_append]
    exact ⟨hself, lowerExpr_calls callee ha hcode.right.left,
      lowerArguments_calls args hc hcode.right.right.left⟩

theorem lowerOperands_calls {done : String} : ∀ (op : LogicalOp) (es : List Expr) {s : Scratch}
    {em : Emission Scratch Unit} {pos : Nat}, lowerOperands table done op es s = .ok em →
    CodeAt lines pos em.lines → ∀ call ∈ Expr.callsOfAll es, LoweredIn lines call
  | _, [], _, _, _, _, _ => by simp [Expr.callsOfAll]
  | op, e :: es, _, _, _, h, hcode => by
    obtain ⟨a, c, ha, hc, rfl⟩ := lowerOperands_cons_ok h
    rw [Expr.callsOfAll, List.forall_mem_append]
    exact ⟨lowerExpr_calls e ha hcode.left, lowerOperands_calls op es hc hcode.right.right⟩

theorem lowerArguments_calls : ∀ (es : List Expr) {s : Scratch} {em : Emission Scratch Unit}
    {pos : Nat}, lowerArguments table es s = .ok em → CodeAt lines pos em.lines →
    ∀ call ∈ Expr.callsOfAll es, LoweredIn lines call
  | [], _, _, _, _, _ => by simp [Expr.callsOfAll]
  | e :: es, _, _, _, h, hcode => by
    obtain ⟨a, c, ha, hc, rfl⟩ := lowerArguments_cons_ok h
    rw [Expr.callsOfAll, List.forall_mem_append]
    exact ⟨lowerExpr_calls e ha hcode.left, lowerArguments_calls es hc hcode.right.right⟩

end

/-! ### Statements -/

variable {s : Session} {em : Emission Session Unit} {pos : Nat}

theorem evaluateOnly_calls {e : Expr} (h : evaluateOnly e s = .ok em)
    (hcode : CodeAt lines pos em.lines) : ∀ call ∈ e.calls, LoweredIn lines call := by
  obtain ⟨a, ha, rfl⟩ := evaluateOnly_ok h
  exact lowerExpr_calls e ha hcode

theorem evaluateOption_calls {e : Option Expr} (h : evaluateOption e s = .ok em)
    (hcode : CodeAt lines pos em.lines) : ∀ call ∈ Expr.calls? e, LoweredIn lines call := by
  cases e with
  | none => simp [Expr.calls?]
  | some e => exact evaluateOnly_calls h hcode

theorem branch_calls {cond : Expr} {ok otherwise : String} (h : branch cond ok otherwise s = .ok em)
    (hcode : CodeAt lines pos em.lines) : ∀ call ∈ cond.calls, LoweredIn lines call := by
  obtain ⟨a, ha, rfl⟩ := branch_ok h
  exact lowerExpr_calls cond ha hcode.left

theorem loopTest_calls {done : String} {cond : Option Expr} (h : loopTest done cond s = .ok em)
    (hcode : CodeAt lines pos em.lines) : ∀ call ∈ Expr.calls? cond, LoweredIn lines call := by
  cases cond with
  | none => simp [Expr.calls?]
  | some cond => exact branch_calls (loopTest_some_ok h) hcode

theorem lowerVariable_calls {at_ : Position} {decl : Variable}
    (h : lowerVariable at_ decl s = .ok em) (hcode : CodeAt lines pos em.lines) :
    ∀ call ∈ Expr.calls? decl.init, LoweredIn lines call := by
  cases hinit : decl.init with
  | none => simp [Expr.calls?]
  | some init =>
    obtain ⟨a, p, table, address, ha, -, -, -, rfl⟩ := lowerVariable_some_ok hinit h
    exact lowerExpr_calls init ha hcode.left

theorem lowerReturn_calls {at_ : Position} {value : Option Expr}
    (h : lowerReturn at_ value s = .ok em) (hcode : CodeAt lines pos em.lines) :
    ∀ call ∈ Expr.calls? value, LoweredIn lines call := by
  cases value with
  | none => simp [Expr.calls?]
  | some e =>
    obtain ⟨-, a, ha, rfl⟩ := lowerReturn_some_ok h
    exact lowerExpr_calls e ha hcode.left

theorem lowerLoop_calls {cond step : Option Expr} {body : Stmt}
    (h : lowerLoop cond step (lowerStmt body) s = .ok em) (hcode : CodeAt lines pos em.lines)
    (hbody : ∀ {s : Session} {em : Emission Session Unit} {pos : Nat}, lowerStmt body s = .ok em →
      CodeAt lines pos em.lines → ∀ call ∈ body.calls, LoweredIn lines call) :
    ∀ call ∈ Expr.calls? cond ++ (body.calls ++ Expr.calls? step), LoweredIn lines call := by
  obtain ⟨t, b, u, ht, hb, hu, rfl⟩ := lowerLoop_ok h
  rw [List.forall_mem_append, List.forall_mem_append]
  exact ⟨loopTest_calls ht hcode.right.left, hbody hb hcode.right.right.left,
    evaluateOption_calls hu hcode.right.right.right.left⟩

theorem lowerItems_calls_of {items : List Stmt}
    (hitems : ∀ item ∈ items, ∀ {s : Session} {em : Emission Session Unit} {pos : Nat},
      lowerStmt item s = .ok em → CodeAt lines pos em.lines →
      ∀ call ∈ item.calls, LoweredIn lines call) :
    ∀ {s : Session} {em : Emission Session Unit} {pos : Nat}, lowerItems items s = .ok em →
      CodeAt lines pos em.lines → ∀ call ∈ Stmt.callsOfAll items, LoweredIn lines call := by
  induction items with
  | nil =>
    intro s em pos h hcode
    simp [Stmt.callsOfAll]
  | cons item items ih =>
    intro s em pos h hcode
    obtain ⟨a, b, ha, hb, rfl⟩ := lowerItems_cons_ok h
    rw [List.forall_mem_cons] at hitems
    rw [Stmt.callsOfAll, List.forall_mem_append]
    exact ⟨hitems.1 ha hcode.left, ih hitems.2 hb hcode.right⟩

theorem lowerStmt_calls (stmt : Stmt) : ∀ {s : Session} {em : Emission Session Unit} {pos : Nat},
    lowerStmt stmt s = .ok em → CodeAt lines pos em.lines →
    ∀ call ∈ stmt.calls, LoweredIn lines call := by
  induction stmt using Stmt.induct with
  | var at_ decl =>
    intro s em pos h hcode
    rw [lowerStmt, Emitter.visit_apply] at h
    rw [Stmt.calls]
    exact lowerVariable_calls h hcode
  | prototype at_ head =>
    intro s em pos h hcode
    simp [Stmt.calls]
  | function at_ head body ih =>
    intro s em pos h hcode
    rw [lowerStmt_function_apply] at h
    obtain ⟨-, table, p, b, reserve, -, -, hb, -, rfl⟩ := lowerFunction_ok h
    rw [Stmt.calls, ← Stmt.callsOfAll_items]
    exact lowerItems_calls_of (fun item hitem => ih item hitem) hb hcode.right.right.left
  | block at_ items ih =>
    intro s em pos h hcode
    rw [lowerStmt, Emitter.visit_apply] at h
    rw [Stmt.calls]
    obtain ⟨-, a, ha, rfl⟩ | ⟨-, ha⟩ := inScope_ok h
    · exact lowerItems_calls_of (fun item hitem => ih item hitem) ha hcode
    · exact lowerItems_calls_of (fun item hitem => ih item hitem) ha hcode
  | expr at_ e =>
    intro s em pos h hcode
    rw [lowerStmt, Emitter.visit_apply] at h
    rw [Stmt.calls]
    exact evaluateOnly_calls h hcode
  | ifThen at_ cond yes ih =>
    intro s em pos h hcode
    obtain ⟨c, y, hc, hy, rfl⟩ := lowerStmt_ifThen_ok h
    rw [Stmt.calls, List.forall_mem_append]
    exact ⟨branch_calls hc hcode.left, ih hy hcode.right.left⟩
  | ifElse at_ cond yes no ihy ihn =>
    intro s em pos h hcode
    obtain ⟨c, y, z, hc, hy, hz, rfl⟩ := lowerStmt_ifElse_ok h
    rw [Stmt.calls, List.forall_mem_append, List.forall_mem_append]
    exact ⟨branch_calls hc hcode.left, ihy hy hcode.right.left,
      ihn hz hcode.right.right.right.left⟩
  | whileLoop at_ cond body ih =>
    intro s em pos h hcode
    rw [lowerStmt, Emitter.visit_apply] at h
    have hloop := lowerLoop_calls h hcode fun h hcode => ih h hcode
    simpa [Stmt.calls, Expr.calls?] using hloop
  | forLoop at_ init cond step body ih =>
    intro s em pos h hcode
    obtain ⟨i, l, hi, hl, rfl⟩ := lowerStmt_forLoop_ok h
    rw [Stmt.calls, List.forall_mem_append]
    exact ⟨evaluateOption_calls hi hcode.left,
      lowerLoop_calls hl hcode.right fun h hcode => ih h hcode⟩
  | ret at_ value =>
    intro s em pos h hcode
    rw [lowerStmt, Emitter.visit_apply] at h
    rw [Stmt.calls]
    exact lowerReturn_calls h hcode

end Lowering

/-- The lines of each call of a program stand in its listing. -/
theorem Listing.ofProgram_calls {file : String} {program : Program} {listing : Listing}
    (h : Listing.ofProgram file program = .ok listing) :
    ∀ call ∈ Stmt.callsOfAll program, LoweredIn listing.lines call := by
  obtain ⟨e, he, rfl⟩ := Listing.ofProgram_ok h
  have hcode : CodeAt (e.lines ++ dataLines e.state) 0 e.lines := ⟨[], dataLines e.state, rfl, rfl⟩
  exact lowerItems_calls_of (fun item _ => lowerStmt_calls item) he hcode

end WordC
