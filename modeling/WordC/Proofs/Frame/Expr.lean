import WordC.Proofs.Labels.Lines
import WordC.Proofs.Lowering.Expr
import WordC.Proofs.SymbolTable

/-!
# What expressions reach in the frame

The lines of an expression name a place of the frame only as the slot of a scalar variable that the
symbol table gives for some name, and they make no room on the stack (`lowerExpr_staysWithin`).
-/

namespace WordC

/-! ### Operands in the frame -/

/-- The offset in an operand that stands in the frame. -/
def Operand.frame? : Operand → Option Int16
  | .memory (.frame offset) => some offset
  | _ => none

/-- The offsets in the operands of an instruction. -/
def Instruction.frameOffsets : Instruction → List Int16
  | .mov target source => target.frame?.toList ++ source.frame?.toList
  | .add _ source | .sub _ source => source.frame?.toList
  | _ => []

/-- The offsets in the operands of a line. -/
def Line.frameOffsets : Line → List Int16
  | .instruction i => i.frameOffsets
  | _ => []

/-- The offsets in the operands of a stretch of lines, in order. -/
def frameOffsetsOf (lines : List Line) : List Int16 := lines.flatMap Line.frameOffsets

theorem frameOffsetsOf_append (lines lines' : List Line) :
    frameOffsetsOf (lines ++ lines') = frameOffsetsOf lines ++ frameOffsetsOf lines' :=
  List.flatMap_append

/-- Does the line move the stack pointer down to make room? -/
def Line.isReservation : Line → Bool
  | .instruction (.sub .sp _) => true
  | _ => false

/-- Neither a place of the frame nor room on the stack. -/
def Line.isFrameless (line : Line) : Bool := line.frameOffsets.isEmpty && !line.isReservation

/-- What the lines name of the frame is at certain offsets, and they make no room on the stack. -/
structure StaysWithin (reach : Int16 → Prop) (lines : List Line) : Prop where
  offsets : ∀ offset ∈ frameOffsetsOf lines, reach offset
  reserves : ∀ line ∈ lines, line.isReservation = false

namespace StaysWithin

variable {reach reach' : Int16 → Prop} {lines lines' : List Line}

theorem append (h : StaysWithin reach lines) (h' : StaysWithin reach lines') :
    StaysWithin reach (lines ++ lines') := by
  refine ⟨fun offset ho => ?_, List.forall_mem_append.2 ⟨h.reserves, h'.reserves⟩⟩
  rw [frameOffsetsOf_append, List.mem_append] at ho
  exact ho.elim (h.offsets offset) (h'.offsets offset)

theorem mono (h : StaysWithin reach lines) (hreach : ∀ offset, reach offset → reach' offset) :
    StaysWithin reach' lines :=
  ⟨fun offset ho => hreach offset (h.offsets offset ho), h.reserves⟩

/-- Lines, each of them for itself. -/
theorem of_forall (h : ∀ line ∈ lines, (∀ offset ∈ line.frameOffsets, reach offset) ∧
    line.isReservation = false) : StaysWithin reach lines := by
  refine ⟨fun offset ho => ?_, fun line hline => (h line hline).2⟩
  obtain ⟨line, hline, ho⟩ := List.mem_flatMap.1 ho
  exact (h line hline).1 offset ho

/-- Lines that name nothing of the frame. -/
theorem plain (h : lines.all Line.isFrameless = true) : StaysWithin reach lines := by
  refine .of_forall fun line hline => ?_
  have hplain := List.all_eq_true.1 h line hline
  simp only [Line.isFrameless, Bool.and_eq_true, List.isEmpty_iff, Bool.not_eq_true'] at hplain
  rw [hplain.1]
  exact ⟨fun offset ho => absurd ho List.not_mem_nil, hplain.2⟩

end StaysWithin

/-! ### Slots -/

/-- The slot of a scalar variable in the frame. -/
def Symbol.slot? : Symbol → Option Int16
  | .stack offset ty _ => if ty.isArray then none else some offset
  | .static _ _ | .function _ _ => none

/-- The offsets of the scalars in the frame that have a name. -/
def SymbolTable.IsSlot (table : SymbolTable) (offset : Int16) : Prop :=
  ∃ x symbol, table.lookup x = some symbol ∧ symbol.slot? = some offset

namespace Lowering
open Emitter

variable {table : SymbolTable} {s : Scratch}

/-! ### Code -/

theorem staysWithin_nameCode {x : String} {symbol : Symbol} (hx : table.lookup x = some symbol)
    (i : Fin generalCount) :
    StaysWithin table.IsSlot ((nameCode (.general i) x symbol).map .instruction) := by
  cases symbol with
  | stack offset ty constant =>
    cases hty : ty.isArray with
    | true =>
      -- the address of an array is computed, it is no operand
      by_cases hneg : offset < 0
      · simp only [nameCode, hty, if_true, frameAddressCode, hneg]
        exact .plain rfl
      · simp only [nameCode, hty, if_true, frameAddressCode, hneg, if_false]
        exact .plain rfl
    | false =>
      simp only [nameCode, hty, Bool.false_eq_true, if_false]
      refine ⟨fun o ho => ?_, List.forall_mem_singleton.2 rfl⟩
      obtain rfl : o = offset := List.mem_singleton.1 ho
      exact ⟨x, _, hx, by simp [Symbol.slot?, hty]⟩
  | static ty constant =>
    cases hty : ty.isArray <;> simp only [nameCode, hty, Bool.false_eq_true, if_false, if_true]
    · exact .plain rfl
    · exact .plain rfl
  | function arity defined => exact .plain rfl

/-- A variable is stored in its slot. -/
theorem staysWithin_store {reach : Int16 → Prop} {x : String} {symbol : Symbol} {address : Address}
    (h : storeAddress? x symbol = some address)
    (hreach : ∀ offset, symbol.slot? = some offset → reach offset) (r : Register) :
    StaysWithin reach [.instruction (.mov address r)] := by
  cases symbol with
  | stack offset ty constant =>
    cases hty : ty.isArray <;> simp only [storeAddress?, hty, Bool.false_eq_true, if_false, if_true,
      Option.some.injEq, reduceCtorEq] at h
    subst h
    refine ⟨fun o ho => ?_, List.forall_mem_singleton.2 rfl⟩
    obtain rfl : o = offset := List.mem_singleton.1 ho
    exact hreach o (by simp [Symbol.slot?, hty])
  | static ty constant =>
    cases hty : ty.isArray <;> simp only [storeAddress?, hty, Bool.false_eq_true, if_false, if_true,
      Option.some.injEq, reduceCtorEq] at h
    subst h
    exact .plain rfl
  | function arity defined => cases h

theorem staysWithin_binaryCode {reach : Int16 → Prop} (i : Fin generalCount) (b : Register)
    (op : BinaryOp) : StaysWithin reach ((binaryCode (.general i) b op).map .instruction) := by
  cases op <;> exact .plain rfl

theorem staysWithin_unaryCode {reach : Int16 → Prop} (a : Register) (i : Fin generalCount)
    (op : UnaryOp) : StaysWithin reach ((unaryCode a (.general i) op).map .instruction) := by
  cases op <;> exact .plain rfl

theorem staysWithin_operandTest {reach : Int16 → Prop} (r : Register) (done next : String)
    (op : LogicalOp) : StaysWithin reach (operandTest r done next op) := by
  cases op <;> exact .plain rfl

theorem staysWithin_push {reach : Int16 → Prop} (registers : List Register) :
    StaysWithin reach ((registers.map Instruction.push).map .instruction) := by
  refine .plain ?_
  rw [List.map_map, List.all_map, List.all_eq_true]
  exact fun r _ => rfl

theorem staysWithin_callCode {reach : Int16 → Prop} (saved : List Register) (target : Register)
    (count : Nat) : StaysWithin reach ((callCode saved target count).map .instruction) := by
  have hpops : StaysWithin reach ((saved.reverse.map Instruction.pop).map .instruction) := by
    refine .plain ?_
    rw [List.map_map, List.all_map, List.all_eq_true]
    exact fun r _ => rfl
  have hdrop : StaysWithin reach ((dropArguments count).map .instruction) := by
    unfold dropArguments
    split <;> exact .plain rfl
  have hcall : StaysWithin reach [.instruction (.call target)] := .plain rfl
  rw [callCode, List.map_cons, List.map_append]
  exact hcall.append (hdrop.append hpops)

/-! ### Expressions -/

theorem staysWithin_load {reach : Int16 → Prop} {pos : Position} {source : Operand}
    {em : Emission Scratch Register} (hsource : source.frame? = none)
    (h : load pos source s = .ok em) : StaysWithin reach em.lines := by
  obtain ⟨i, -, rfl⟩ := load_ok h
  refine .plain ?_
  simp only [List.all_cons, List.all_nil, Line.isFrameless, Line.frameOffsets,
    Instruction.frameOffsets, hsource]
  rfl

theorem staysWithin_loadName {pos : Position} {x : String} {em : Emission Scratch Register}
    (h : loadName table pos x s = .ok em) : StaysWithin table.IsSlot em.lines := by
  obtain ⟨symbol, i, hx, -, rfl⟩ := loadName_ok h
  exact staysWithin_nameCode hx i

mutual

/-- An expression names of the frame the slots of scalars only. -/
theorem lowerExpr_staysWithin : ∀ (e : Expr) {s : Scratch} {em : Emission Scratch Register},
    lowerExpr table e s = .ok em → StaysWithin table.IsSlot em.lines
  | .number .., _, _, h => staysWithin_load rfl (by rwa [lowerExpr] at h)
  | .character .., _, _, h => staysWithin_load rfl (by rwa [lowerExpr] at h)
  | .bool .., _, _, h => staysWithin_load rfl (by rwa [lowerExpr] at h)
  | .text .., _, _, h => by
    obtain ⟨i, -, rfl⟩ := lowerExpr_text_ok h
    exact .plain rfl
  | .name .., _, _, h => staysWithin_loadName (by rwa [lowerExpr] at h)
  | .assign _ target value, _, _, h => by
    obtain ⟨place, hp⟩ := lowerExpr_assign_ok h
    cases place with
    | named at_ x =>
      obtain ⟨symbol, address, a, hx, haddr, ha, rfl⟩ := lowerExpr_assign_named_ok hp h
      have hstore := staysWithin_store haddr (fun o ho => (⟨x, symbol, hx, ho⟩ : table.IsSlot o))
      exact (lowerExpr_staysWithin value ha).append (hstore a.value)
    | pointee at_ x =>
      obtain ⟨a, b, ha, hb, rfl⟩ := lowerExpr_assign_pointee_ok hp h
      exact (staysWithin_loadName ha).append ((lowerExpr_staysWithin value hb).append (.plain rfl))
  | .logical _ op operands, _, _, h => by
    obtain ⟨i, c, -, hc, rfl⟩ := lowerExpr_logical_ok h
    exact (StaysWithin.plain rfl).append
      ((lowerOperands_staysWithin op operands hc).append (.plain rfl))
  | .binary _ op left right, _, _, h => by
    obtain ⟨a, b, ha, hb, rfl⟩ := lowerExpr_binary_ok h
    have hcode : StaysWithin table.IsSlot
        ((binaryCode a.value b.value op).map .instruction) := by
      obtain ⟨i, hi, -⟩ := lowerExpr_takes left ha
      rw [hi]
      exact staysWithin_binaryCode i b.value op
    exact (lowerExpr_staysWithin left ha).append ((lowerExpr_staysWithin right hb).append hcode)
  | .unary _ op operand, _, _, h => by
    obtain ⟨a, i, ha, -, rfl⟩ := lowerExpr_unary_ok h
    exact (lowerExpr_staysWithin operand ha).append (staysWithin_unaryCode a.value i op)
  | .call _ callee args, _, _, h => by
    obtain ⟨a, c, i, ha, hc, -, rfl⟩ := lowerExpr_call_ok h
    exact (staysWithin_push _).append ((lowerExpr_staysWithin callee ha).append
      ((lowerArguments_staysWithin args hc).append
        ((staysWithin_callCode _ _ _).append (.plain rfl))))

theorem lowerOperands_staysWithin : ∀ (op : LogicalOp) (es : List Expr) {done : String}
    {s : Scratch} {em : Emission Scratch Unit}, lowerOperands table done op es s = .ok em →
    StaysWithin table.IsSlot em.lines
  | _, [], _, _, _, h => by
    rw [lowerOperands_nil_ok h]
    exact .plain rfl
  | op, e :: es, _, _, _, h => by
    obtain ⟨a, c, ha, hc, rfl⟩ := lowerOperands_cons_ok h
    exact (lowerExpr_staysWithin e ha).append
      ((staysWithin_operandTest _ _ _ op).append (lowerOperands_staysWithin op es hc))

theorem lowerArguments_staysWithin : ∀ (es : List Expr) {s : Scratch} {em : Emission Scratch Unit},
    lowerArguments table es s = .ok em → StaysWithin table.IsSlot em.lines
  | [], _, _, h => by
    rw [lowerArguments_nil_ok h]
    exact .plain rfl
  | e :: es, _, _, h => by
    obtain ⟨a, c, ha, hc, rfl⟩ := lowerArguments_cons_ok h
    exact (lowerExpr_staysWithin e ha).append
      ((StaysWithin.plain rfl).append (lowerArguments_staysWithin es hc))

end

end Lowering

end WordC
