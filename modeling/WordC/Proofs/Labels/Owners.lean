import WordC.Proofs.Lowering.Stmt

/-!
# Whose the flow labels are

Flow labels are numbered as they are handed out, so the syntax tells what each of them is for: it
belongs to a logical operator, or to an if or a loop.

* `Stmt.labelOwners`: the owners of the flow labels of a statement, in order of their numbers;
* `statementLabels`: the labels that ifs and loops own;
* `lowerExpr_labelCount`: an expression is handed out as many labels as its logical operators own.
-/

namespace WordC

open Lowering

/-- What a flow label was handed out for. -/
inductive LabelOwner
  /-- An if or a loop. -/
  | statement
  /-- A logical operator. -/
  | operator
deriving DecidableEq, Repr

/-! ### Owners in the syntax -/

mutual

/-- How many flow labels the logical operators of an expression own. The target of an assignment is
a name or a pointer, without labels. -/
def Expr.labelCount : Expr → Nat
  | .assign _ _ value => value.labelCount
  | .logical _ op operands => 1 + (operandLabels op * operands.length + labelCountOfAll operands)
  | .binary _ _ left right => left.labelCount + right.labelCount
  | .unary _ _ operand => operand.labelCount
  | .call _ callee args => callee.labelCount + labelCountOfAll args
  | .name .. | .number .. | .text .. | .character .. | .bool .. => 0

/-- How many flow labels the logical operators of expressions own. -/
def Expr.labelCountOfAll : List Expr → Nat
  | [] => 0
  | e :: es => e.labelCount + labelCountOfAll es

end

/-- The owners of the flow labels of an expression. -/
def Expr.labelOwners (e : Expr) : List LabelOwner := .replicate e.labelCount .operator

/-- The owners of the flow labels of an expression that may be left out. -/
def optionOwners : Option Expr → List LabelOwner
  | none => []
  | some e => e.labelOwners

/-- The owners of the flow labels of the test of a loop, which has one where the body begins. -/
def testOwners : Option Expr → List LabelOwner
  | none => []
  | some cond => .statement :: cond.labelOwners

mutual

/-- The owners of the flow labels of a statement, in order of their numbers. -/
def Stmt.labelOwners : Stmt → List LabelOwner
  | .var _ decl => optionOwners decl.init
  | .prototype _ _ => []
  | .function _ _ body => body.labelOwners
  | .block _ items => labelOwnersOfAll items
  | .expr _ e => e.labelOwners
  | .ifThen _ cond yes => .statement :: .statement :: (cond.labelOwners ++ yes.labelOwners)
  | .ifElse _ cond yes no =>
    .statement :: .statement :: .statement ::
      (cond.labelOwners ++ (yes.labelOwners ++ no.labelOwners))
  | .whileLoop _ cond body =>
    .statement :: .statement :: (testOwners (some cond) ++ body.labelOwners)
  | .forLoop _ init cond step body =>
    optionOwners init ++ (.statement :: .statement ::
      (testOwners cond ++ (body.labelOwners ++ optionOwners step)))
  | .ret _ value => optionOwners value

/-- The owners of the flow labels of statements. -/
def Stmt.labelOwnersOfAll : List Stmt → List LabelOwner
  | [] => []
  | item :: items => item.labelOwners ++ labelOwnersOfAll items

end

theorem Stmt.labelOwnersOfAll_items (stmt : Stmt) :
    labelOwnersOfAll stmt.items = stmt.labelOwners := by
  cases stmt <;> simp [items, labelOwners, labelOwnersOfAll]

@[simp] theorem Expr.length_labelOwners (e : Expr) : e.labelOwners.length = e.labelCount :=
  List.length_replicate

/-! ### The labels of ifs and loops -/

/-- The labels of ifs and loops, if the first of the owners has the flow label of number `n`. -/
def statementLabels : Nat → List LabelOwner → List String
  | _, [] => []
  | n, .statement :: owners => flowLabel n :: statementLabels (n + 1) owners
  | n, .operator :: owners => statementLabels (n + 1) owners

theorem statementLabels_append (n : Nat) (owners owners' : List LabelOwner) :
    statementLabels n (owners ++ owners') =
      statementLabels n owners ++ statementLabels (n + owners.length) owners' := by
  fun_induction statementLabels n owners with
  | case1 n => rfl
  | case2 n owners ih =>
    rw [List.cons_append, statementLabels, ih, List.cons_append, List.length_cons]
    congr 3
    omega
  | case3 n owners ih =>
    rw [List.cons_append, statementLabels, ih, List.length_cons]
    congr 2
    omega

theorem statementLabels_replicate (n count : Nat) :
    statementLabels n (.replicate count .statement) = (List.range' n count).map flowLabel := by
  induction count generalizing n with
  | zero => rfl
  | succ count ih => rw [List.replicate_succ, statementLabels, ih, List.range'_succ, List.map_cons]

@[simp] theorem statementLabels_labelOwners (n : Nat) (e : Expr) :
    statementLabels n e.labelOwners = [] := by
  rw [Expr.labelOwners]
  generalize e.labelCount = count
  induction count generalizing n with
  | zero => rfl
  | succ count ih => rw [List.replicate_succ, statementLabels, ih]

/-! ### Labels handed out -/

namespace Lowering

variable {table : SymbolTable}

theorem load_labels {pos : Position} {source : Operand} {s : Scratch}
    {em : Emission Scratch Register} (h : load pos source s = .ok em) :
    em.state.labels = s.labels := by
  obtain ⟨i, -, rfl⟩ := load_ok h
  rfl

theorem loadName_labels {pos : Position} {x : String} {s : Scratch}
    {em : Emission Scratch Register} (h : loadName table pos x s = .ok em) :
    em.state.labels = s.labels := by
  obtain ⟨symbol, i, -, -, rfl⟩ := loadName_ok h
  rfl

mutual

/-- An expression is handed out as many labels as its logical operators own. -/
theorem lowerExpr_labelCount : ∀ (e : Expr) {s : Scratch} {em : Emission Scratch Register},
    lowerExpr table e s = .ok em → em.state.labels = s.labels + e.labelCount
  | .number .., _, _, h | .character .., _, _, h | .bool .., _, _, h => by
    rw [lowerExpr] at h
    exact load_labels h
  | .text .., _, _, h => by
    obtain ⟨i, -, rfl⟩ := lowerExpr_text_ok h
    rfl
  | .name .., _, _, h => by
    rw [lowerExpr] at h
    exact loadName_labels h
  | .assign _ target value, _, _, h => by
    rw [Expr.labelCount]
    obtain ⟨place, hp⟩ := lowerExpr_assign_ok h
    cases place with
    | named at_ x =>
      obtain ⟨symbol, address, a, -, -, ha, rfl⟩ := lowerExpr_assign_named_ok hp h
      have hvalue := lowerExpr_labelCount value ha
      exact hvalue
    | pointee at_ x =>
      obtain ⟨a, b, ha, hb, rfl⟩ := lowerExpr_assign_pointee_ok hp h
      rw [← loadName_labels ha]
      have hvalue := lowerExpr_labelCount value hb
      exact hvalue
  | .logical _ op operands, s, _, h => by
    obtain ⟨i, c, -, hc, rfl⟩ := lowerExpr_logical_ok h
    rw [Expr.labelCount, ← Nat.add_assoc]
    have hoperands := lowerOperands_labelCount op operands hc
    exact hoperands
  | .binary _ op left right, _, _, h => by
    obtain ⟨a, b, ha, hb, rfl⟩ := lowerExpr_binary_ok h
    rw [Expr.labelCount, ← Nat.add_assoc, ← lowerExpr_labelCount left ha]
    have hright := lowerExpr_labelCount right hb
    exact hright
  | .unary _ op operand, _, _, h => by
    obtain ⟨a, i, ha, -, rfl⟩ := lowerExpr_unary_ok h
    have hoperand := lowerExpr_labelCount operand ha
    exact hoperand
  | .call _ callee args, _, _, h => by
    obtain ⟨a, c, i, ha, hc, -, rfl⟩ := lowerExpr_call_ok h
    rw [Expr.labelCount, ← Nat.add_assoc, ← lowerExpr_labelCount callee ha]
    have hargs := lowerArguments_labelCount args hc
    exact hargs

theorem lowerOperands_labelCount {done : String} : ∀ (op : LogicalOp) (es : List Expr)
    {s : Scratch} {em : Emission Scratch Unit}, lowerOperands table done op es s = .ok em →
    em.state.labels = s.labels + (operandLabels op * es.length + Expr.labelCountOfAll es)
  | _, [], _, _, h => by
    rw [lowerOperands_nil_ok h]
    rfl
  | op, e :: es, s, _, h => by
    obtain ⟨a, c, ha, hc, rfl⟩ := lowerOperands_cons_ok h
    have hfirst := lowerExpr_labelCount e ha
    have hrest := lowerOperands_labelCount op es hc
    rw [Expr.labelCountOfAll, List.length_cons, Nat.mul_succ]
    simp only at hfirst hrest ⊢
    omega

theorem lowerArguments_labelCount : ∀ (es : List Expr) {s : Scratch} {em : Emission Scratch Unit},
    lowerArguments table es s = .ok em →
    em.state.labels = s.labels + Expr.labelCountOfAll es
  | [], _, _, h => by
    rw [lowerArguments_nil_ok h]
    rfl
  | e :: es, _, _, h => by
    obtain ⟨a, c, ha, hc, rfl⟩ := lowerArguments_cons_ok h
    rw [Expr.labelCountOfAll, ← Nat.add_assoc, ← lowerExpr_labelCount e ha]
    have hrest := lowerArguments_labelCount es hc
    exact hrest

end

end Lowering

end WordC
