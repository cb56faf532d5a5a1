import WordC.Proofs.Lowering.Stmt
import WordC.Proofs.Registers.History

/-!
# The history of lowering

* `recordExpr` and `recordItems`: the histories of expressions and of statements. Declarations and
  whatever else only changes the session leave no trace in them (`declare_silent` and others);
* `Stmt.parts`: the statements inside a statement. All of them begin and end in its history
  (`lowerStmt_covers`).
-/

namespace WordC.Lowering

/-- Lower an expression, with the history. -/
def recordExpr (table : SymbolTable) (e : Expr) (s : Scratch) : Recording Scratch Register :=
  (lowerExpr table e).record Scratch.pool s

/-- Lower statements one after the other, with the history. -/
def recordItems (items : List Stmt) (s : Session) : Recording Session Unit :=
  (lowerItems items).record Session.pool s

/-! ### Steps that emit nothing -/

section Silent

open Emitter (Silent)

variable {σ : Type} {pos : Position}

theorem resolve_silent (table : SymbolTable) (x : String) :
    Silent (resolve table pos x : Emitter σ Symbol) := by
  unfold resolve
  cases table.lookup x with
  | none => exact .change _
  | some symbol => exact .pure symbol

theorem newLabel_silent : Silent (onScratch newLabel) := .focus (.change _)

theorem release_silent (r : Register) : Silent (onScratch (release r)) := .focus (.change _)

theorem declare_silent (x : String) (symbol : Symbol) : Silent (declare pos x symbol) :=
  .bind (.change _) fun _ => .bind (.ofExcept _ _) fun _ => .change _

theorem place_silent (ty : Ty) (constant : Bool) : Silent (place pos ty constant) := by
  refine .bind (.change _) fun session => ?_
  cases session.frame with
  | none => exact .pure _
  | some frame =>
    dsimp only
    split
    · exact .change _
    · exact .bind (.change _) fun _ => .pure _

theorem declareParams_silent (function : String) (params : List Param) :
    Silent (declareParams pos function params) := by
  induction params with
  | nil => exact .pure _
  | cons param params ih =>
    rw [declareParams]
    cases paramOffset? (params.length + 1) with
    | none => exact .change _
    | some offset => exact .bind (declare_silent _ _) fun _ => ih

theorem declareFunction_silent (head : Signature) (defined : Bool) :
    Silent (declareFunction pos head defined) :=
  .bind (.change _) fun _ => .ite (.change _) (declare_silent _ _)

theorem enterFunction_silent (head : Signature) : Silent (enterFunction pos head) :=
  .bind (.change _) fun _ => .bind (.change _) fun _ => declareParams_silent _ _

theorem leaveFunction_silent : Silent (leaveFunction pos) := by
  refine .bind (.change _) fun session => .bind (.change _) fun _ => ?_
  cases session.frame with
  | none => exact .pure _
  | some frame =>
    refine .ite (.pure _) ?_
    cases frame.bytes? with
    | none => exact .change _
    | some bytes => exact .pure _

end Silent

end WordC.Lowering

/-! ### Statements that begin and end -/

namespace WordC.Stmt

mutual

/-- The statements that are lowered inside a statement, each behind those inside it. The block that
is the body of a function is not lowered as a statement of its own. -/
def parts : Stmt → List Stmt
  | .function _ _ (.block _ items) => partsOfAll items
  | .function _ _ body => body.parts ++ [body]
  | .block _ items => partsOfAll items
  | .ifThen _ _ yes => yes.parts ++ [yes]
  | .ifElse _ _ yes no => yes.parts ++ [yes] ++ (no.parts ++ [no])
  | .whileLoop _ _ body | .forLoop _ _ _ _ body => body.parts ++ [body]
  | .var _ _ | .prototype _ _ | .expr _ _ | .ret _ _ => []

/-- Statements that are lowered one after the other, each behind those inside it. -/
def partsOfAll : List Stmt → List Stmt
  | [] => []
  | item :: items => item.parts ++ [item] ++ partsOfAll items

end

theorem parts_function (pos : Position) (head : Signature) (body : Stmt) :
    (Stmt.function pos head body).parts = partsOfAll body.items := by
  cases body <;> simp [parts, items, partsOfAll]

end WordC.Stmt

namespace WordC.Lowering
open Emitter (Covers)

section Nested

variable {x : Emitter Session Unit} {stmts : List Stmt}

theorem lowerFunction_covers (h : Covers x stmts) (pos : Position) (head : Signature) :
    Covers (lowerFunction pos head x) stmts :=
  .andThen fun _ => .before (.behind (.andThen fun _ => h))

theorem inScope_covers (h : Covers x stmts) : Covers (inScope x) stmts :=
  .andThen fun _ => .ite (.andThen fun _ => .before h) h

theorem lowerLoop_covers (h : Covers x stmts) (cond step : Option Expr) :
    Covers (lowerLoop cond step x) stmts :=
  .andThen fun _ => .andThen fun _ => .andThen fun _ => .andThen fun _ => .before h

end Nested

theorem lowerItems_covers_of {items : List Stmt}
    (h : ∀ item ∈ items, Covers (lowerStmt item) (item.parts ++ [item])) :
    Covers (lowerItems items) (Stmt.partsOfAll items) := by
  induction items with
  | nil => exact .nil
  | cons item items ih =>
    rw [List.forall_mem_cons] at h
    rw [lowerItems, Stmt.partsOfAll]
    exact .bind h.1 fun _ => ih h.2

theorem lowerBody_covers {body : Stmt}
    (h : ∀ item ∈ body.items, Covers (lowerStmt item) (item.parts ++ [item])) :
    Covers (lowerBody body) (Stmt.partsOfAll body.items) := by
  obtain ⟨pos, items, rfl⟩ | ⟨hitems, hbody⟩ := lowerBody_cases body
  · exact lowerItems_covers_of h
  · rw [hitems, hbody, Stmt.partsOfAll, Stmt.partsOfAll, List.append_nil]
    exact h body (hitems ▸ List.mem_singleton_self body)

/-- A statement and those inside it begin and end. -/
theorem lowerStmt_covers (stmt : Stmt) : Covers (lowerStmt stmt) (stmt.parts ++ [stmt]) := by
  induction stmt using Stmt.induct with
  | function pos head body ih =>
    rw [lowerStmt_function, Stmt.parts_function]
    exact .visit (lowerFunction_covers (lowerBody_covers ih) pos head)
  | block pos items ih =>
    rw [lowerStmt, Stmt.parts]
    exact .visit (inScope_covers (lowerItems_covers_of ih))
  | ifThen pos cond yes ih =>
    rw [lowerStmt, Stmt.parts]
    exact .visit (.andThen fun _ => .andThen fun _ => .andThen fun _ => .before ih)
  | ifElse pos cond yes no ihyes ihno =>
    rw [lowerStmt, Stmt.parts]
    refine .visit (.andThen fun _ => .andThen fun _ => .andThen fun _ => .andThen fun _ => ?_)
    exact .bind ihyes fun _ => .andThen fun _ => .andThen fun _ => .before ihno
  | whileLoop pos cond body ih =>
    rw [lowerStmt, Stmt.parts]
    exact .visit (lowerLoop_covers ih (some cond) none)
  | forLoop pos init cond step body ih =>
    rw [lowerStmt, Stmt.parts]
    exact .visit (.andThen fun _ => lowerLoop_covers ih cond step)
  | var _ _ | prototype _ _ | expr _ _ | ret _ _ =>
    rw [lowerStmt, Stmt.parts]
    exact .visit .nil

theorem lowerItems_covers (items : List Stmt) :
    Covers (lowerItems items) (Stmt.partsOfAll items) :=
  lowerItems_covers_of fun item _ => lowerStmt_covers item

end WordC.Lowering
