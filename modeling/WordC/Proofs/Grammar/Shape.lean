import WordC.Proofs.Diagnostics.Places
import WordC.Proofs.Printer.Words
import WordC.Proofs.WellFormed.Program

/-!
# The shape of the trees that are read

Not every syntax tree stands for tokens. `Stmt.isPrintable` asks for what a tree must have to be
written down: variables and parameters that are not void, arrays with a count and no initial value,
functions that return no arrays, two operands for a logical operator, and no declaration where only
a statement may stand. All trees that stand for tokens are of this shape: `IsItems.arePrintable`.
-/

namespace WordC

namespace Grammar

variable {ts : List Token}

/-! ### Expressions -/

mutual

theorem IsExpr.isPrintable : ∀ {level : Level} {ts : List Token} {e : Expr}, IsExpr level ts e →
    e.isPrintable = true
  | _, _, _, .tighter _ h | _, _, _, .parens _ h _ => h.isPrintable
  | _, _, _, .assign htarget _ hvalue => by
    rw [Expr.isPrintable, htarget.isPrintable, hvalue.isPrintable, Bool.and_true]
  | _, _, _, .logical _ _ he _ hes => by
    have hrest := List.length_pos_of_ne_nil hes.ne_nil
    rw [Expr.isPrintable, Expr.arePrintable, he.isPrintable, hes.arePrintable, Bool.and_true,
      Bool.and_true, decide_eq_true_eq, List.length_cons]
    omega
  | _, _, _, .binary _ _ hleft _ hright => by
    rw [Expr.isPrintable, hleft.isPrintable, hright.isPrintable, Bool.and_true]
  | _, _, _, .unary _ _ h => by
    rw [Expr.isPrintable]
    exact h.isPrintable
  | _, _, _, .callEmpty h _ _ => by
    rw [Expr.isPrintable, Expr.arePrintable, h.isPrintable, Bool.and_true]
  | _, _, _, .call h _ hargs _ => by
    rw [Expr.isPrintable, h.isPrintable, hargs.arePrintable, Bool.and_true]
  | _, _, _, .atom h => by
    cases h with
    | name | number | text | character | yes | no => rw [Expr.isPrintable]

theorem IsChain.arePrintable : ∀ {m : Mark} {level : Level} {ts : List Token} {es : List Expr},
    IsChain m level ts es → Expr.arePrintable es = true
  | _, _, _, _, .one h => by
    rw [Expr.arePrintable, Expr.arePrintable, h.isPrintable, Bool.and_true]
  | _, _, _, _, .more h _ hes => by
    rw [Expr.arePrintable, h.isPrintable, hes.arePrintable, Bool.and_true]

end

theorem IsOptional.isPrintable {e : Option Expr} (h : IsOptional ts e) :
    Expr.isPrintable? e = true := by
  cases h with
  | none => rfl
  | some h => exact h.isPrintable

theorem IsCondition.isPrintable {e : Expr} (h : IsCondition ts e) : e.isPrintable = true := by
  cases h with
  | mk _ h _ => exact h.isPrintable

/-! ### Declarations -/

theorem IsType.isVoid {ty : Ty} (h : IsType ts ty) (hvoid : ty ≠ .void) : ty.isVoid = false := by
  cases h with
  | pointer => rfl
  | @base _ base =>
    cases base with
    | void => exact absurd rfl hvoid
    | int | char => rfl

theorem IsParam.shape {param : Param} (h : IsParam ts param) :
    (!param.ty.isVoid && !param.ty.isArray) = true := by
  cases h with
  | mk hty _ hvoid =>
    rw [hty.isVoid hvoid, hty.isArray]
    rfl

theorem IsParamList.shape : ∀ {ts : List Token} {params : List Param}, IsParamList ts params →
    params.all (fun param => !param.ty.isVoid && !param.ty.isArray) = true
  | _, _, .one h => by rw [List.all_cons, h.shape, List.all_nil, Bool.and_true]
  | _, _, .more h _ hs => by rw [List.all_cons, h.shape, hs.shape, Bool.and_true]

theorem IsHead.isPrintable {us : List Token} {constant : Bool} {result : Ty} {name : String}
    {params : List Param} (hhead : IsHead ts constant result name) (hparams : IsParams us params) :
    Signature.isPrintable ⟨name, result, params⟩ = true := by
  rw [Signature.isPrintable, hhead.isArray, Bool.not_false, Bool.true_and]
  cases hparams with
  | void | empty => rfl
  | list _ h _ => exact h.shape

/-- A variable that is neither void nor an array is as its initial value. -/
theorem isPrintable_of_scalar {decl : Variable} (hvoid : decl.ty ≠ .void)
    (harray : decl.ty.isArray = false) (hinit : Expr.isPrintable? decl.init = true) :
    decl.isPrintable = true := by
  unfold Variable.isPrintable
  cases hty : decl.ty with
  | void => exact absurd hty hvoid
  | array elem count => simp [hty, Ty.isArray] at harray
  | int | char | pointer => exact hinit

theorem IsVariable.isPrintable {decl : Variable} (h : IsVariable ts decl) :
    decl.isPrintable = true := by
  cases h with
  | @array _ _ _ _ _ _ _ _ count _ _ _ hcount =>
    have hpos : 0 < count.toNat := by
      rw [Nat.pos_iff_ne_zero]
      exact fun hzero => hcount (UInt16.toNat_inj.1 hzero)
    have hlt : count.toNat < 65536 := count.toNat_lt
    simp [Variable.isPrintable, hpos, hlt]
  | initialized hhead hvoid _ hinit _ =>
    exact isPrintable_of_scalar hvoid hhead.isArray (IsOptional.some hinit).isPrintable
  | bare hhead hvoid _ => exact isPrintable_of_scalar hvoid hhead.isArray rfl

/-! ### Statements -/

theorem IsStmt.isDeclaration {stmt : Stmt} (h : IsStmt ts stmt) : stmt.isDeclaration = false := by
  cases h with
  | block | ifThen | ifElse | whileLoop | forLoop | ret | expr => rfl

mutual

theorem IsStmt.isPrintable : ∀ {ts : List Token} {stmt : Stmt}, IsStmt ts stmt →
    stmt.isPrintable = true
  | _, _, .block _ h _ => by
    rw [Stmt.isPrintable]
    exact h.arePrintable
  | _, _, .ifThen _ hcond hyes => by
    rw [Stmt.isPrintable, hcond.isPrintable, hyes.isDeclaration, hyes.isPrintable]
    rfl
  | _, _, .ifElse _ hcond hyes hclosed _ hno => by
    rw [Stmt.isPrintable, hcond.isPrintable, hyes.isDeclaration, hyes.isPrintable, hclosed,
      hno.isDeclaration, hno.isPrintable]
    rfl
  | _, _, .whileLoop _ hcond hbody => by
    rw [Stmt.isPrintable, hcond.isPrintable, hbody.isDeclaration, hbody.isPrintable]
    rfl
  | _, _, .forLoop _ _ hinit _ hcond _ hstep _ hbody => by
    rw [Stmt.isPrintable, hinit.isPrintable, hcond.isPrintable, hstep.isPrintable,
      hbody.isDeclaration, hbody.isPrintable]
    rfl
  | _, _, .ret _ hvalue _ => by
    rw [Stmt.isPrintable]
    exact hvalue.isPrintable
  | _, _, .expr h _ => by
    rw [Stmt.isPrintable]
    exact h.isPrintable

theorem IsItem.isPrintable : ∀ {ts : List Token} {item : Stmt}, IsItem ts item →
    item.isPrintable = true
  | _, _, .stmt h => h.isPrintable
  | _, _, .var h => by
    rw [Stmt.isPrintable]
    exact h.isPrintable
  | _, _, .prototype hhead hparams _ => by
    rw [Stmt.isPrintable]
    exact hhead.isPrintable hparams
  | _, _, .function hhead hparams hbody => by
    rw [Stmt.isPrintable, hhead.isPrintable hparams, hbody.isDeclaration, hbody.isPrintable]
    rfl

theorem IsItems.arePrintable : ∀ {ts : List Token} {items : List Stmt}, IsItems ts items →
    Stmt.arePrintable items = true
  | _, _, .nil => by rw [Stmt.arePrintable]
  | _, _, .cons h hs => by rw [Stmt.arePrintable, h.isPrintable, hs.arePrintable, Bool.and_true]

end

end Grammar

/-- The shape of every program that is read. In the whole tree no variable or parameter is void,
no parameter or result is an array, every array has from 1 to 65535 elements and no initial value,
every logical operator has at least two operands, and no declaration is the branch of an `if` or the
body of a loop or function. Every node has the position of one of the tokens. -/
theorem Program.ofTokens_shape {tokens : List Token} {program : Program}
    (h : Program.ofTokens tokens = .ok program) :
    Stmt.arePrintable program = true ∧
      Stmt.positionsOfAll program ⊆ tokens.map Token.pos := by
  have hitems := Program.isItems_of_ofTokens h
  exact ⟨hitems.arePrintable, hitems.positions_subset fun t ht => List.mem_map_of_mem ht⟩

/-- `int a[3]; int f(int x, char *y) { if (x && *y || !a) return x; else for (;;) x = 1; }` -/
def Program.branching : String :=
  "int a[3]; int f(int x, char *y) \x7b if (x && *y || !a) return x; else for (;;) x = 1; \x7d"

/-- An array, a chain of operands, and statements in each other are read. -/
theorem Program.ofTokens_shape_branching : ∃ tokens program,
    Token.ofSource "a.c" branching = .ok tokens ∧ Program.ofTokens tokens = .ok program ∧
      program.length = 2 ∧ Stmt.arePrintable program = true ∧
      Stmt.positionsOfAll program ⊆ tokens.map Token.pos := by
  have hread : ((Token.ofSource "a.c" branching).bind Program.ofTokens).map List.length =
      .ok 2 := by decide +kernel
  obtain ⟨tokens, program, htokens, hprogram, hlength⟩ := Listing.exists_program hread
  exact ⟨tokens, program, htokens, hprogram, hlength, Program.ofTokens_shape hprogram⟩

end WordC
