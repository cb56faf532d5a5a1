import WordC.Proofs.Labels.Lines
import WordC.Proofs.Lowering.Expr
import WordC.Proofs.SymbolTable

/-!
# What expressions store to

A line stores to a place in memory if it moves something there (`Line.store?`). The lines of an
expression store only where a register points to, and to variables that are not constant and that
the symbol table gives for some name (`lowerExpr_storesTo`).
-/

namespace WordC

/-! ### Stores -/

/-- The place in memory that an instruction stores to. -/
def Instruction.store? : Instruction → Option Address
  | .mov (.memory address) _ => some address
  | _ => none

/-- The place in memory that a line stores to. -/
def Line.store? : Line → Option Address
  | .instruction i => i.store?
  | _ => none

/-- The places that a stretch of lines stores to, in order. -/
def storesOf (lines : List Line) : List Address := lines.filterMap Line.store?

@[simp] theorem storesOf_append (lines lines' : List Line) :
    storesOf (lines ++ lines') = storesOf lines ++ storesOf lines' := List.filterMap_append

theorem storesOf_map_instruction (code : List Instruction) :
    storesOf (code.map .instruction) = code.filterMap Instruction.store? := List.filterMap_map

/-- The lines store to certain places only. -/
def StoresTo (reach : Address → Prop) (lines : List Line) : Prop :=
  ∀ address ∈ storesOf lines, reach address

namespace StoresTo

variable {reach : Address → Prop} {lines lines' : List Line}

theorem append (h : StoresTo reach lines) (h' : StoresTo reach lines') :
    StoresTo reach (lines ++ lines') := by
  intro address haddress
  rw [storesOf_append, List.mem_append] at haddress
  exact haddress.elim (h address) (h' address)

/-- Lines that store nothing. -/
theorem plain (h : storesOf lines = []) : StoresTo reach lines := by
  intro address haddress
  rw [h] at haddress
  cases haddress

end StoresTo

/-- What the lines of an expression may store to: where a register points to, and the variables that
are not constant. -/
def SymbolTable.IsAssignable (table : SymbolTable) (address : Address) : Prop :=
  (∃ r, address = .register r) ∨ ∃ x symbol, table.lookup x = some symbol ∧
    symbol.isConstant = false ∧ Lowering.storeAddress? x symbol = some address

namespace Lowering
open Emitter

variable {table : SymbolTable} {s : Scratch}

/-! ### Code -/

theorem storesOf_nameCode (r : Register) (x : String) (symbol : Symbol) :
    storesOf ((nameCode r x symbol).map .instruction) = [] := by
  cases symbol with
  | stack offset ty constant =>
    cases hty : ty.isArray with
    | true =>
      by_cases hneg : offset < 0
      · simp only [nameCode, hty, if_true, frameAddressCode, hneg]
        rfl
      · simp only [nameCode, hty, if_true, frameAddressCode, hneg, if_false]
        rfl
    | false =>
      simp only [nameCode, hty, Bool.false_eq_true, if_false]
      rfl
  | static ty constant =>
    cases hty : ty.isArray <;> simp only [nameCode, hty, Bool.false_eq_true, if_false, if_true]
    · rfl
    · rfl
  | function arity defined => rfl

theorem storesOf_binaryCode (a b : Register) (op : BinaryOp) :
    storesOf ((binaryCode a b op).map .instruction) = [] := by
  cases op <;> rfl

theorem storesOf_unaryCode (a r : Register) (op : UnaryOp) :
    storesOf ((unaryCode a r op).map .instruction) = [] := by
  cases op <;> rfl

theorem storesOf_operandTest (r : Register) (done next : String) (op : LogicalOp) :
    storesOf (operandTest r done next op) = [] := by
  cases op <;> rfl

theorem storesOf_push (registers : List Register) :
    storesOf ((registers.map Instruction.push).map .instruction) = [] := by
  rw [storesOf_map_instruction, List.filterMap_map, List.filterMap_eq_nil_iff]
  exact fun r _ => rfl

theorem storesOf_pop (registers : List Register) :
    storesOf ((registers.map Instruction.pop).map .instruction) = [] := by
  rw [storesOf_map_instruction, List.filterMap_map, List.filterMap_eq_nil_iff]
  exact fun r _ => rfl

theorem storesOf_callCode (saved : List Register) (target : Register) (count : Nat) :
    storesOf ((callCode saved target count).map .instruction) = [] := by
  have hdrop : storesOf ((dropArguments count).map .instruction) = [] := by
    unfold dropArguments
    split <;> rfl
  have hcall : storesOf [.instruction (.call target)] = [] := rfl
  rw [callCode, List.map_cons, List.map_append, ← List.singleton_append, storesOf_append,
    storesOf_append, hcall, hdrop, storesOf_pop, List.append_nil, List.append_nil]

/-! ### Expressions -/

theorem storesOf_load {pos : Position} {source : Operand} {em : Emission Scratch Register}
    (h : load pos source s = .ok em) : storesOf em.lines = [] := by
  obtain ⟨i, -, rfl⟩ := load_ok h
  rfl

theorem storesOf_loadName {pos : Position} {x : String} {em : Emission Scratch Register}
    (h : loadName table pos x s = .ok em) : storesOf em.lines = [] := by
  obtain ⟨symbol, i, -, -, rfl⟩ := loadName_ok h
  exact storesOf_nameCode _ x symbol

mutual

/-- An expression stores where a register points to and to variables that are not constant. -/
theorem lowerExpr_storesTo : ∀ (e : Expr) {s : Scratch} {em : Emission Scratch Register},
    lowerExpr table e s = .ok em → StoresTo table.IsAssignable em.lines
  | .number .., _, _, h => .plain (storesOf_load (by rwa [lowerExpr] at h))
  | .character .., _, _, h => .plain (storesOf_load (by rwa [lowerExpr] at h))
  | .bool .., _, _, h => .plain (storesOf_load (by rwa [lowerExpr] at h))
  | .text .., _, _, h => by
    obtain ⟨i, -, rfl⟩ := lowerExpr_text_ok h
    exact .plain rfl
  | .name .., _, _, h => .plain (storesOf_loadName (by rwa [lowerExpr] at h))
  | .assign _ target value, _, _, h => by
    obtain ⟨place, hp⟩ := lowerExpr_assign_ok h
    cases place with
    | named at_ x =>
      obtain ⟨symbol, address, a, hx, haddr, ha, rfl⟩ := lowerExpr_assign_named_ok hp h
      have hconstant := isConstant_of_lowerExpr_assign hp hx h
      have hstore : StoresTo table.IsAssignable [.instruction (.mov address a.value)] :=
        List.forall_mem_singleton.2 (.inr ⟨x, symbol, hx, hconstant, haddr⟩)
      exact (lowerExpr_storesTo value ha).append hstore
    | pointee at_ x =>
      obtain ⟨a, b, ha, hb, rfl⟩ := lowerExpr_assign_pointee_ok hp h
      have hstore : StoresTo table.IsAssignable
          [.instruction (.mov (Address.register a.value) b.value)] :=
        List.forall_mem_singleton.2 (.inl ⟨a.value, rfl⟩)
      exact (StoresTo.plain (storesOf_loadName ha)).append
        ((lowerExpr_storesTo value hb).append hstore)
  | .logical _ op operands, _, _, h => by
    obtain ⟨i, c, -, hc, rfl⟩ := lowerExpr_logical_ok h
    exact (StoresTo.plain rfl).append ((lowerOperands_storesTo op operands hc).append (.plain rfl))
  | .binary _ op left right, _, _, h => by
    obtain ⟨a, b, ha, hb, rfl⟩ := lowerExpr_binary_ok h
    exact (lowerExpr_storesTo left ha).append
      ((lowerExpr_storesTo right hb).append (.plain (storesOf_binaryCode _ _ op)))
  | .unary _ op operand, _, _, h => by
    obtain ⟨a, i, ha, -, rfl⟩ := lowerExpr_unary_ok h
    exact (lowerExpr_storesTo operand ha).append (.plain (storesOf_unaryCode _ _ op))
  | .call _ callee args, _, _, h => by
    obtain ⟨a, c, i, ha, hc, -, rfl⟩ := lowerExpr_call_ok h
    exact (StoresTo.plain (storesOf_push _)).append ((lowerExpr_storesTo callee ha).append
      ((lowerArguments_storesTo args hc).append
        ((StoresTo.plain (storesOf_callCode _ _ _)).append (.plain rfl))))

theorem lowerOperands_storesTo : ∀ (op : LogicalOp) (es : List Expr) {done : String}
    {s : Scratch} {em : Emission Scratch Unit}, lowerOperands table done op es s = .ok em →
    StoresTo table.IsAssignable em.lines
  | _, [], _, _, _, h => by
    rw [lowerOperands_nil_ok h]
    exact .plain rfl
  | op, e :: es, _, _, _, h => by
    obtain ⟨a, c, ha, hc, rfl⟩ := lowerOperands_cons_ok h
    exact (lowerExpr_storesTo e ha).append
      ((StoresTo.plain (storesOf_operandTest _ _ _ op)).append (lowerOperands_storesTo op es hc))

theorem lowerArguments_storesTo : ∀ (es : List Expr) {s : Scratch} {em : Emission Scratch Unit},
    lowerArguments table es s = .ok em → StoresTo table.IsAssignable em.lines
  | [], _, _, h => by
    rw [lowerArguments_nil_ok h]
    exact .plain rfl
  | e :: es, _, _, h => by
    obtain ⟨a, c, ha, hc, rfl⟩ := lowerArguments_cons_ok h
    exact (lowerExpr_storesTo e ha).append
      ((StoresTo.plain rfl).append (lowerArguments_storesTo es hc))

end

end Lowering

end WordC
