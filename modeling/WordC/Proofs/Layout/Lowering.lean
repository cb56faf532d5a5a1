import Mathlib.Tactic.Common
import WordC.Compile
import WordC.Proofs.Layout.Parser
import WordC.Proofs.Lowering.Stmt

/-!
# The layout of a source

`Emitter.Agree x y`: two emitters do the same, except that they may report a failure at different
places. Lowering a tree agrees with lowering it without its positions, and with what is known about
the parser a source compiles to a listing that depends on the spelling of its tokens only:
`compile_of_map_spelling_eq`.
-/

namespace WordC

/-- Results that are the same up to positions are the same value, or have the same cause. -/
theorem Diagnostic.cases_of_mapError_eq {α : Type} {x y : Except Diagnostic α}
    (h : x.mapError cause = y.mapError cause) :
    (∃ a, x = .ok a ∧ y = .ok a) ∨ ∃ d d', x = .error d ∧ y = .error d' ∧ d.cause = d'.cause := by
  cases x with
  | ok a =>
    cases y with
    | ok a' => exact .inl ⟨a, rfl, congrArg _ (Except.ok.inj h).symm⟩
    | error d' => cases h
  | error d =>
    cases y with
    | ok a' => cases h
    | error d' => exact .inr ⟨d, d', rfl, rfl, Except.error.inj h⟩

namespace Emitter

variable {σ τ α β : Type} {x y : Emitter σ α}

/-- The emitters give the same from every state, or fail for the same cause. -/
def Agree (x y : Emitter σ α) : Prop :=
  ∀ s, (x s).mapError Diagnostic.cause = (y s).mapError Diagnostic.cause

namespace Agree

theorem refl (x : Emitter σ α) : Agree x x := fun _ => rfl

/-- The two ways in which emitters agree. -/
theorem cases (h : Agree x y) (s : σ) :
    (∃ em, x s = .ok em ∧ y s = .ok em) ∨
      ∃ d d', x s = .error d ∧ y s = .error d' ∧ d.cause = d'.cause :=
  Diagnostic.cases_of_mapError_eq (h s)

theorem bind {f g : α → Emitter σ β} (h : Agree x y) (hf : ∀ a, Agree (f a) (g a)) :
    Agree (x >>= f) (y >>= g) := by
  intro s
  rw [bind_apply, bind_apply]
  rcases h.cases s with ⟨em, hx, hy⟩ | ⟨d, d', hx, hy, hcause⟩
  · -- what follows starts with the same value in the same state
    rw [hx, hy]
    rcases (hf em.value).cases em.state with ⟨_, hfx, hfy⟩ | ⟨_, _, hfx, hfy, hcause⟩
    · simp only [hfx, hfy]
    · simp only [hfx, hfy, Except.mapError, hcause]
  · simp only [hx, hy, Except.mapError, hcause]

/-- The same step in front. -/
theorem andThen {f g : α → Emitter σ β} (x : Emitter σ α) (hf : ∀ a, Agree (f a) (g a)) :
    Agree (x >>= f) (x >>= g) := (refl x).bind hf

theorem fail (pos pos' : Position) (cause : Cause) :
    Agree (Emitter.fail pos cause : Emitter σ α) (Emitter.fail pos' cause) := fun _ => rfl

theorem ofExcept (pos pos' : Position) (result : Except Cause α) :
    Agree (Emitter.ofExcept pos result : Emitter σ α) (Emitter.ofExcept pos' result) := by
  intro s
  cases result <;> rfl

theorem ite {c : Prop} [Decidable c] {x' y' : Emitter σ α} (h : Agree x y) (h' : Agree x' y') :
    Agree (if c then x else x') (if c then y else y') := by
  split
  · exact h
  · exact h'

theorem visit {stmt stmt' : Stmt} {x y : Emitter σ Unit} (h : Agree x y) :
    Agree (Emitter.visit stmt x) (Emitter.visit stmt' y) := h

theorem behind {x y x' y' : Emitter σ Unit} (h : Agree x y) (h' : Agree x' y') :
    Agree (Emitter.behind x x') (Emitter.behind y y') := by
  intro s
  rw [behind_apply, behind_apply]
  rcases h.cases s with ⟨em, hx, hy⟩ | ⟨d, d', hx, hy, hcause⟩
  · rw [hx, hy]
    rcases h'.cases em.state with ⟨_, hx', hy'⟩ | ⟨_, _, hx', hy', hcause⟩
    · simp only [hx', hy']
    · simp only [hx', hy', Except.mapError, hcause]
  · simp only [hx, hy, Except.mapError, hcause]

theorem focus {part : τ → σ} {put : σ → τ → τ} (h : Agree x y) :
    Agree (Emitter.focus part put x) (Emitter.focus part put y) := by
  intro t
  rw [focus_apply, focus_apply]
  rcases h.cases (part t) with ⟨em, hx, hy⟩ | ⟨d, d', hx, hy, hcause⟩
  · rw [hx, hy]
  · simp only [hx, hy, Except.mapError, hcause]

end Agree

end Emitter

namespace Lowering
open Emitter

variable {table : SymbolTable}

/-! ### Expressions -/

theorem alloc_agree (pos pos' : Position) : Agree (alloc pos) (alloc pos') := by
  intro s
  rw [alloc_apply, alloc_apply]
  cases s.pool.alloc? <;> rfl

theorem load_agree (pos pos' : Position) (source : Operand) :
    Agree (load pos source) (load pos' source) :=
  .bind (alloc_agree pos pos') fun _ => .refl _

theorem resolve_agree {σ : Type} (pos pos' : Position) (x : String) :
    Agree (resolve table pos x : Emitter σ Symbol) (resolve table pos' x) := by
  unfold resolve
  cases table.lookup x with
  | some symbol => exact .refl _
  | none => exact .fail pos pos' _

theorem loadName_agree (pos pos' : Position) (x : String) :
    Agree (loadName table pos x) (loadName table pos' x) :=
  .bind (resolve_agree pos pos' x) fun _ => .bind (alloc_agree pos pos') fun _ => .refl _

theorem store_agree {σ : Type} (pos pos' : Position) (x : String) (symbol : Symbol)
    (r : Register) : Agree (store pos x symbol r : Emitter σ Unit) (store pos' x symbol r) := by
  unfold store
  cases storeAddress? x symbol with
  | some address => exact .refl _
  | none => exact .fail pos pos' _

theorem applyUnary_agree (pos pos' : Position) (op : UnaryOp) (source : Register) :
    Agree (applyUnary pos op source) (applyUnary pos' op source) :=
  .bind (alloc_agree pos pos') fun _ => .refl _

end Lowering

/-- The place without positions. -/
def Place.forget : Place → Place
  | .named _ x => .named default x
  | .pointee _ x => .pointee default x

theorem Expr.place?_forget (e : Expr) : e.forget.place? = e.place?.map Place.forget := by
  cases e with
  | unary pos op operand => cases op <;> cases operand <;> simp [forget, place?, Place.forget]
  | _ => simp [forget, place?, Place.forget]

namespace Lowering
open Emitter

variable {table : SymbolTable}

mutual

/-- Lowering an expression depends on its positions only in where it reports. -/
theorem lowerExpr_agree : ∀ e : Expr, Agree (lowerExpr table e.forget) (lowerExpr table e)
  | .number pos _ | .character pos _ | .bool pos _ => by
    rw [Expr.forget, lowerExpr, lowerExpr]
    exact load_agree default pos _
  | .text pos _ => by
    rw [Expr.forget, lowerExpr, lowerExpr]
    exact .andThen _ fun _ => load_agree default pos _
  | .name pos x => by
    rw [Expr.forget, lowerExpr, lowerExpr]
    exact loadName_agree default pos x
  | .assign _ target value => by
    rw [Expr.forget, lowerExpr, lowerExpr, Expr.place?_forget]
    cases target.place? with
    | none => exact .fail _ _ _
    | some place =>
      cases place with
      | named pos x =>
        refine .bind (resolve_agree default pos x) fun symbol => .ite (.fail default pos _) ?_
        refine .bind (lowerExpr_agree value) fun r => ?_
        exact .bind (store_agree default pos x symbol r) fun _ => .refl _
      | pointee pos x =>
        refine .bind (loadName_agree default pos x) fun address => ?_
        exact .bind (lowerExpr_agree value) fun r => .refl _
  | .logical pos op operands => by
    rw [Expr.forget, lowerExpr, lowerExpr]
    refine .andThen _ fun done => .bind (alloc_agree default pos) fun r => ?_
    have hoperands := lowerOperands_agree op operands done
    cases op with
    | or => exact .andThen _ fun _ => .bind hoperands fun _ => .refl _
    | and => exact .andThen _ fun _ => .bind hoperands fun _ => .refl _
  | .binary _ op left right => by
    rw [Expr.forget, lowerExpr, lowerExpr]
    exact .bind (lowerExpr_agree left) fun a => .bind (lowerExpr_agree right) fun b => .refl _
  | .unary pos op operand => by
    rw [Expr.forget, lowerExpr, lowerExpr]
    exact .bind (lowerExpr_agree operand) fun source => applyUnary_agree default pos op source
  | .call pos callee args => by
    -- the code behind the call depends on how many arguments there are
    have hlength : (Expr.forgetAll args).length = args.length := by
      rw [Expr.forgetAll_eq_map, List.length_map]
    rw [Expr.forget, lowerExpr, lowerExpr, hlength]
    refine .andThen _ fun saved => .andThen _ fun _ => ?_
    refine .bind (lowerExpr_agree callee) fun target => ?_
    refine .bind (lowerArguments_agree args) fun _ => .andThen _ fun _ => .andThen _ fun _ => ?_
    exact .andThen _ fun _ => .andThen _ fun _ => load_agree default pos _

theorem lowerOperands_agree : ∀ (op : LogicalOp) (es : List Expr) (done : String),
    Agree (lowerOperands table done op (Expr.forgetAll es)) (lowerOperands table done op es)
  | _, [], _ => .refl _
  | .or, e :: es, done => by
    simp only [Expr.forgetAll, lowerOperands, lowerOr]
    refine .bind (lowerExpr_agree e) fun r => .andThen _ fun _ => .andThen _ fun _ => ?_
    exact lowerOperands_agree .or es done
  | .and, e :: es, done => by
    simp only [Expr.forgetAll, lowerOperands, lowerAnd]
    refine .andThen _ fun ok => .bind (lowerExpr_agree e) fun r => .andThen _ fun _ => ?_
    refine .andThen _ fun _ => .andThen _ fun _ => .andThen _ fun _ => ?_
    exact lowerOperands_agree .and es done

theorem lowerArguments_agree : ∀ es : List Expr,
    Agree (lowerArguments table (Expr.forgetAll es)) (lowerArguments table es)
  | [] => .refl _
  | e :: es => by
    rw [Expr.forgetAll, lowerArguments, lowerArguments]
    refine .bind (lowerExpr_agree e) fun r => .andThen _ fun _ => .andThen _ fun _ => ?_
    exact lowerArguments_agree es

end

theorem evaluate_agree (e : Expr) : Agree (evaluate e.forget) (evaluate e) :=
  .andThen _ fun _ => .focus (lowerExpr_agree e)

theorem evaluateOnly_agree (e : Expr) : Agree (evaluateOnly e.forget) (evaluateOnly e) :=
  .bind (evaluate_agree e) fun _ => .refl _

theorem evaluateOption_agree (e : Option Expr) :
    Agree (evaluateOption (e.map Expr.forget)) (evaluateOption e) := by
  cases e with
  | none => exact .refl _
  | some e => exact evaluateOnly_agree e

/-! ### Declarations -/

theorem declare_agree (pos pos' : Position) (x : String) (symbol : Symbol) :
    Agree (declare pos x symbol) (declare pos' x symbol) :=
  .andThen _ fun _ => .bind (.ofExcept pos pos' _) fun _ => .refl _

theorem place_agree (pos pos' : Position) (ty : Ty) (constant : Bool) :
    Agree (place pos ty constant) (place pos' ty constant) := by
  refine .andThen _ fun session => ?_
  cases session.frame with
  | none => exact .refl _
  | some frame =>
    dsimp only
    cases Frame.bytes? { frame with words := frame.words + ty.words } with
    | none => exact .fail pos pos' _
    | some bytes => exact .refl _

theorem lowerVariable_agree (pos pos' : Position) (decl : Variable) :
    Agree (lowerVariable pos decl.forget) (lowerVariable pos' decl) := by
  cases decl with
  | mk name ty constant init =>
    have hplace := place_agree pos pos' ty constant
    cases init with
    | none => exact .bind hplace fun symbol => declare_agree pos pos' name symbol
    | some init =>
      refine .bind (evaluate_agree init) fun r => .bind hplace fun symbol => ?_
      refine .bind (declare_agree pos pos' name symbol) fun _ => ?_
      exact .bind (store_agree pos pos' name symbol r) fun _ => .refl _

theorem declareParams_agree (pos pos' : Position) (function : String) : ∀ params : List Param,
    Agree (declareParams pos function params) (declareParams pos' function params)
  | [] => .refl _
  | param :: params => by
    rw [declareParams, declareParams]
    cases paramOffset? (params.length + 1) with
    | none => exact .fail pos pos' _
    | some offset =>
      refine .bind (declare_agree pos pos' _ _) fun _ => ?_
      exact declareParams_agree pos pos' function params

theorem declareFunction_agree (pos pos' : Position) (head : Signature) (defined : Bool) :
    Agree (declareFunction pos head defined) (declareFunction pos' head defined) :=
  .andThen _ fun _ => .ite (.fail pos pos' _) (declare_agree pos pos' _ _)

theorem leaveFunction_agree (pos pos' : Position) :
    Agree (leaveFunction pos) (leaveFunction pos') := by
  refine .andThen _ fun session => .andThen _ fun _ => ?_
  cases session.frame with
  | none => exact .refl _
  | some frame =>
    refine .ite (.refl _) ?_
    cases frame.bytes? with
    | some bytes => exact .refl _
    | none => exact .fail pos pos' _

theorem lowerFunction_agree (pos pos' : Position) (head : Signature)
    {body body' : Emitter Session Unit} (h : Agree body body') :
    Agree (lowerFunction pos head body) (lowerFunction pos' head body') := by
  have henter : Agree (enterFunction pos head) (enterFunction pos' head) :=
    .andThen _ fun _ => .andThen _ fun _ => declareParams_agree pos pos' _ _
  refine .bind (declareFunction_agree pos pos' head true) fun _ => ?_
  refine .bind (.behind (.bind henter fun _ => h) ?_) fun _ => .refl _
  exact .bind (leaveFunction_agree pos pos') fun _ => .refl _

/-! ### Statements -/

theorem branch_agree (cond : Expr) (ok otherwise : String) :
    Agree (branch cond.forget ok otherwise) (branch cond ok otherwise) :=
  .bind (evaluate_agree cond) fun _ => .refl _

theorem loopTest_agree (done : String) (cond : Option Expr) :
    Agree (loopTest done (cond.map Expr.forget)) (loopTest done cond) := by
  cases cond with
  | none => exact .refl _
  | some cond => exact .andThen _ fun ok => branch_agree cond ok done

theorem lowerLoop_agree (cond step : Option Expr) {body body' : Emitter Session Unit}
    (h : Agree body body') :
    Agree (lowerLoop (cond.map Expr.forget) (step.map Expr.forget) body)
      (lowerLoop cond step body') := by
  refine .andThen _ fun top => .andThen _ fun done => .andThen _ fun _ => ?_
  refine .bind (loopTest_agree done cond) fun _ => .bind h fun _ => ?_
  exact .bind (evaluateOption_agree step) fun _ => .refl _

theorem inScope_agree {x y : Emitter Session Unit} (h : Agree x y) :
    Agree (inScope x) (inScope y) :=
  .andThen _ fun _ => .ite (.andThen _ fun _ => .bind h fun _ => .refl _) h

theorem lowerReturn_agree (pos pos' : Position) (value : Option Expr) :
    Agree (lowerReturn pos (value.map Expr.forget)) (lowerReturn pos' value) := by
  refine .andThen _ fun session => .ite (.fail pos pos' _) ?_
  cases value with
  | none => exact .refl _
  | some e => exact .bind (evaluate_agree e) fun _ => .refl _

theorem lowerItems_agree {items : List Stmt}
    (h : ∀ item ∈ items, Agree (lowerStmt item.forget) (lowerStmt item)) :
    Agree (lowerItems (Stmt.forgetAll items)) (lowerItems items) := by
  induction items with
  | nil => exact .refl _
  | cons item items ih =>
    rw [List.forall_mem_cons] at h
    rw [Stmt.forgetAll, lowerItems, lowerItems]
    exact .bind h.1 fun _ => ih h.2

end Lowering

theorem Stmt.items_forget (stmt : Stmt) : stmt.forget.items = forgetAll stmt.items := by
  cases stmt <;> simp [forget, items, forgetAll]

namespace Lowering
open Emitter

theorem lowerBody_agree {body : Stmt}
    (h : ∀ item ∈ body.items, Agree (lowerStmt item.forget) (lowerStmt item)) :
    Agree (lowerBody body.forget) (lowerBody body) := by
  intro s
  rw [lowerBody_apply, lowerBody_apply, Stmt.items_forget]
  exact lowerItems_agree h s

/-- Lowering a statement depends on its positions only in where it reports. -/
theorem lowerStmt_agree (stmt : Stmt) : Agree (lowerStmt stmt.forget) (lowerStmt stmt) := by
  induction stmt using Stmt.induct with
  | var pos decl =>
    rw [Stmt.forget, lowerStmt, lowerStmt]
    exact .visit (lowerVariable_agree default pos decl)
  | prototype pos head =>
    rw [Stmt.forget, lowerStmt, lowerStmt]
    exact .visit (declareFunction_agree default pos head false)
  | function pos head body ih =>
    rw [Stmt.forget, lowerStmt_function, lowerStmt_function]
    exact .visit (lowerFunction_agree default pos head (lowerBody_agree ih))
  | block pos items ih =>
    rw [Stmt.forget, lowerStmt, lowerStmt]
    exact .visit (inScope_agree (lowerItems_agree ih))
  | expr pos e =>
    rw [Stmt.forget, lowerStmt, lowerStmt]
    exact .visit (evaluateOnly_agree e)
  | ifThen pos cond yes ih =>
    rw [Stmt.forget, lowerStmt, lowerStmt]
    refine .visit (.andThen _ fun ok => .andThen _ fun done => ?_)
    exact .bind (branch_agree cond ok done) fun _ => .bind ih fun _ => .refl _
  | ifElse pos cond yes no ihyes ihno =>
    rw [Stmt.forget, lowerStmt, lowerStmt]
    refine .visit (.andThen _ fun ok => .andThen _ fun otherwise => .andThen _ fun done => ?_)
    refine .bind (branch_agree cond ok otherwise) fun _ => .bind ihyes fun _ => ?_
    exact .andThen _ fun _ => .andThen _ fun _ => .bind ihno fun _ => .refl _
  | whileLoop pos cond body ih =>
    rw [Stmt.forget, lowerStmt, lowerStmt]
    exact .visit (lowerLoop_agree (some cond) none ih)
  | forLoop pos init cond step body ih =>
    rw [Stmt.forget, lowerStmt, lowerStmt]
    exact .visit (.bind (evaluateOption_agree init) fun _ => lowerLoop_agree cond step ih)
  | ret pos value =>
    rw [Stmt.forget, lowerStmt, lowerStmt]
    exact .visit (lowerReturn_agree default pos value)

end Lowering

/-- The listing of a program depends on its positions only in where it reports. -/
theorem Listing.ofProgram_forgetAll (file : String) (program : Program) :
    (Listing.ofProgram file (Stmt.forgetAll program)).mapError Diagnostic.cause =
      (Listing.ofProgram file program).mapError Diagnostic.cause := by
  have hitems := Lowering.lowerItems_agree fun item (_ : item ∈ program) =>
    Lowering.lowerStmt_agree item
  rw [ofProgram, ofProgram]
  rcases hitems.cases .empty with ⟨em, hx, hy⟩ | ⟨d, d', hx, hy, hcause⟩
  · rw [hx, hy]
  · simp only [hx, hy, Except.mapError, hcause]

/-! ### Sources -/

/-- What a source compiles to, up to positions, is told by its tokens without theirs. -/
theorem compile_mapError_cause {file source : String} {tokens : List Token}
    (h : Token.ofSource file source = .ok tokens) :
    (compile file source).mapError Diagnostic.cause =
      ((Program.ofTokens (tokens.map Token.forget)).mapError Diagnostic.cause).bind
        fun program => (Listing.ofProgram file program).mapError Diagnostic.cause := by
  rw [compile, h, Program.ofTokens_map_forget]
  cases hprogram : Program.ofTokens tokens with
  | error d => simp only [hprogram]; rfl
  | ok program =>
    simp only [hprogram]
    exact (Listing.ofProgram_forgetAll file program).symm

/-- Two sources whose tokens are spelled the same, wherever they stand, compile to the same listing
or are refused for the same cause. -/
theorem compile_of_map_spelling_eq {file source source' : String} {tokens tokens' : List Token}
    (h : Token.ofSource file source = .ok tokens) (h' : Token.ofSource file source' = .ok tokens')
    (hspelling : tokens.map Token.spelling = tokens'.map Token.spelling) :
    (∃ listing, compile file source = .ok listing ∧ compile file source' = .ok listing) ∨
      ∃ d d', compile file source = .error d ∧ compile file source' = .error d' ∧
        d.cause = d'.cause := by
  apply Diagnostic.cases_of_mapError_eq
  rw [compile_mapError_cause h, compile_mapError_cause h', Token.map_forget_eq hspelling]

/-- A declaration on one line, and spread over several lines with a directive and comments. -/
theorem compile_of_map_spelling_eq_spread :
    let compact := "int x;"
    let spread := "#define N 3\nint // type\n  x ; // end\n"
    let tokens (a b c : Position) : List Token :=
      [⟨.keyword .intWord, "int", a⟩, ⟨.identifier, "x", b⟩, ⟨.mark .semicolon, ";", c⟩]
    Token.ofSource "a.c" compact = .ok (tokens ⟨"a.c", 1, 1⟩ ⟨"a.c", 1, 5⟩ ⟨"a.c", 1, 6⟩) ∧
    Token.ofSource "a.c" spread = .ok (tokens ⟨"a.c", 2, 1⟩ ⟨"a.c", 3, 3⟩ ⟨"a.c", 3, 5⟩) ∧
    ((∃ listing, compile "a.c" compact = .ok listing ∧ compile "a.c" spread = .ok listing) ∨
      ∃ d d', compile "a.c" compact = .error d ∧ compile "a.c" spread = .error d' ∧
        d.cause = d'.cause) := by
  intro compact spread tokens
  have h : Token.ofSource "a.c" compact =
      .ok (tokens ⟨"a.c", 1, 1⟩ ⟨"a.c", 1, 5⟩ ⟨"a.c", 1, 6⟩) := by decide +kernel
  have h' : Token.ofSource "a.c" spread =
      .ok (tokens ⟨"a.c", 2, 1⟩ ⟨"a.c", 3, 3⟩ ⟨"a.c", 3, 5⟩) := by decide +kernel
  exact ⟨h, h', compile_of_map_spelling_eq h h' rfl⟩

end WordC
