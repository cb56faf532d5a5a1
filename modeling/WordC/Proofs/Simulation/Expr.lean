import WordC.Proofs.Lowering.Expr
import WordC.Proofs.Semantics.Expr

/-!
# Lowered expressions compute their values

The lines of an expression without calls, wherever they stand in a listing with distinct labels, run
from their first line to behind their last and leave the value of the expression in the result
register and the memory as the evaluation leaves it. The registers in use before, and the special
ones, keep their words (`RegisterPool.Keeps`).

The proof follows the expression. What the fixed stretches of code do is said once for each of them
(`executeAll_nameCode`, `executeAll_binaryCode`, `executeAll_unaryCode`); the operands of a logical
operator either jump to its end or run through (`lowerOperands_computes`).
-/

namespace WordC

variable {μ : Type}

/-! ### Registers that are kept -/

namespace RegisterPool

/-- Special registers, and general ones that are in use. -/
def isKept (p : RegisterPool) : Register → Bool
  | .general i => p.isLive i
  | _ => true

/-- The registers in use and the special ones hold the same words. -/
def Keeps (p : RegisterPool) (k k' : Machine μ) : Prop :=
  ∀ r, p.isKept r = true → k'.registers r = k.registers r

variable {p q : RegisterPool} {a : Register} {k k' k'' : Machine μ}

theorem Takes.isKept_eq (h : p.Takes a q) (r : Register) :
    q.isKept r = (p.isKept r || r = a) := by
  obtain ⟨i, rfl, -, rfl⟩ := h
  cases r with
  | general j =>
    by_cases hj : i = j
    · simp [isKept, isLive_set, hj]
    · simp [isKept, isLive_set, hj, Ne.symm hj]
  | sf => rfl
  | sp => rfl
  | rv => rfl

theorem Takes.isKept_result (h : p.Takes a q) : q.isKept a = true := by
  simp [h.isKept_eq]

theorem Takes.not_isKept (h : p.Takes a q) : p.isKept a = false := by
  obtain ⟨i, rfl, hi, -⟩ := h
  exact hi

/-- A register that is free later was free before. -/
theorem Takes.not_isKept_before {b : Register} {q' : RegisterPool} (h : q.Takes b q')
    (h' : p.Takes a q) : p.isKept b = false := by
  have hb := h.not_isKept
  rw [h'.isKept_eq, Bool.or_eq_false_iff] at hb
  exact hb.1

theorem Keeps.refl (p : RegisterPool) (k : Machine μ) : p.Keeps k k := fun _ _ => rfl

theorem Keeps.trans (h : p.Keeps k k') (h' : p.Keeps k' k'') : p.Keeps k k'' :=
  fun r hr => (h' r hr).trans (h r hr)

theorem Keeps.of_takes (ht : p.Takes a q) (h : q.Keeps k k') : p.Keeps k k' :=
  fun r hr => h r (by simp [ht.isKept_eq, hr])

theorem Keeps.sf (h : p.Keeps k k') : k'.registers .sf = k.registers .sf := h .sf rfl

end RegisterPool

/-! ### Stretches of code -/

/-- The second machine is the first but for two registers. -/
def ChangesOnly (a b : Register) (k k' : Machine μ) : Prop :=
  k'.memory = k.memory ∧ ∀ r, r ≠ a → r ≠ b → k'.registers r = k.registers r

theorem ChangesOnly.keeps {p : RegisterPool} {a b : Register} {k k' : Machine μ}
    (h : ChangesOnly a b k k') (ha : p.isKept a = false) (hb : p.isKept b = false) :
    p.Keeps k k' := by
  intro r hr
  apply h.2
  · rintro rfl
    simp [ha] at hr
  · rintro rfl
    simp [hb] at hr

theorem ChangesOnly.trans {a b : Register} {k k' k'' : Machine μ} (h : ChangesOnly a b k k')
    (h' : ChangesOnly a b k' k'') : ChangesOnly a b k k'' :=
  ⟨h'.1.trans h.1, fun r ha hb => (h'.2 r ha hb).trans (h.2 r ha hb)⟩

theorem ChangesOnly.weaken {a : Register} {k k' : Machine μ} (h : ChangesOnly a a k k')
    (b : Register) : ChangesOnly a b k k' :=
  ⟨h.1, fun r ha _ => h.2 r ha ha⟩

theorem changesOnly_set (k : Machine μ) (a b : Register) (v : Word) :
    ChangesOnly a b k (k.set a v) :=
  ⟨rfl, fun _ ha _ => k.registers_set_of_ne ha v⟩

theorem Word.ofBool_eq_zero (b : Bool) : Word.ofBool b = 0 ↔ b = false := by
  cases b <;> decide

/-- An offset is added whichever way its distance is applied. -/
theorem add_offset (w : Word) (offset : Int16) :
    (if offset < 0 then w - offsetDistance offset else w + offsetDistance offset) =
      w + offset.toUInt16 := by
  have hd : (offsetDistance offset).toNat = offset.toInt.natAbs % 65536 := by
    simp [offsetDistance]
  have hu : offset.toUInt16.toNat = offset.toBitVec.toNat := rfl
  have hi : offset.toInt = if 2 * offset.toBitVec.toNat < 65536 then (offset.toBitVec.toNat : Int)
      else offset.toBitVec.toNat - 65536 := by
    simpa using BitVec.toInt_eq_toNat_cond offset.toBitVec
  have hlt := offset.toBitVec.isLt
  have hneg : offset < 0 ↔ offset.toInt < 0 := Int16.lt_iff_toInt_lt
  have hw := w.toNat_lt
  apply UInt16.toNat_inj.1
  split
  · rename_i h
    rw [hneg] at h
    rw [UInt16.toNat_sub, UInt16.toNat_add, hd, hu]
    split at hi <;> omega
  · rename_i h
    rw [hneg] at h
    rw [UInt16.toNat_add, UInt16.toNat_add, hd, hu]
    split at hi <;> omega

section Code

open Lowering

variable (world : World μ) (k : Machine μ)

theorem executeAll_append (code code' : List Instruction) :
    k.executeAll world (code ++ code') =
      (k.executeAll world code).bind fun k' => k'.executeAll world code' := by
  induction code generalizing k with
  | nil => rfl
  | cons i code ih =>
    simp only [List.cons_append, Machine.executeAll, Option.bind_assoc]
    congr 1
    funext k'
    exact ih k'

theorem executeAll_mov (r : Register) (source : Operand) :
    k.executeAll world [.mov r source] = some (k.set r (k.value world source)) := rfl

theorem executeAll_frameAddressCode (r : Register) (offset : Int16) :
    k.executeAll world (frameAddressCode r offset) =
      some ((k.set r (k.registers .sf)).set r (k.registers .sf + offset.toUInt16)) := by
  rw [← add_offset]
  by_cases hneg : offset < 0 <;>
    simp [frameAddressCode, hneg, Machine.executeAll, Machine.execute, Machine.assign,
      Machine.value]

/-- Loading a name gives its value. -/
theorem executeAll_nameCode (r : Register) (x : String) (symbol : Symbol) :
    ∃ k', k.executeAll world (nameCode r x symbol) = some k' ∧
      k'.registers r = symbol.value world (k.registers .sf) x k.memory ∧ ChangesOnly r r k k' := by
  have loaded (source : Operand) : ChangesOnly r r k (k.set r (k.value world source)) :=
    changesOnly_set k r r _
  cases symbol with
  | stack offset ty constant =>
    cases hty : ty.isArray with
    | true =>
      rw [nameCode, if_pos hty, executeAll_frameAddressCode]
      refine ⟨_, rfl, ?_, (changesOnly_set k r r _).trans (changesOnly_set _ r r _)⟩
      simp [Symbol.value, Symbol.isScalar, Symbol.location, hty]
    | false =>
      rw [nameCode, hty, if_neg Bool.false_ne_true, executeAll_mov]
      refine ⟨_, rfl, ?_, loaded _⟩
      simp [Symbol.value, Symbol.isScalar, Symbol.location, hty, Machine.value, Machine.locate]
  | static ty constant =>
    cases hty : ty.isArray with
    | true =>
      rw [nameCode, if_pos hty, executeAll_mov]
      refine ⟨_, rfl, ?_, loaded _⟩
      simp [Symbol.value, Symbol.isScalar, Symbol.location, hty, Machine.value]
    | false =>
      rw [nameCode, hty, if_neg Bool.false_ne_true, executeAll_mov]
      refine ⟨_, rfl, ?_, loaded _⟩
      simp [Symbol.value, Symbol.isScalar, Symbol.location, hty, Machine.value, Machine.locate]
  | function arity defined =>
    rw [nameCode, executeAll_mov]
    refine ⟨_, rfl, ?_, loaded _⟩
    simp [Symbol.value, Symbol.isScalar, Symbol.location, Machine.value]

/-- A comparison leaves its outcome. -/
theorem executeAll_compareCode (r a b : Register) (flag : Flag) :
    ∃ k', k.executeAll world (compareCode r a b flag) = some k' ∧
      k'.registers r = Word.ofBool
        ({ k with compared := (k.registers a, k.registers b) : Machine μ }.flag world flag) ∧
      ChangesOnly r r k k' :=
  ⟨_, rfl, by simp, rfl, fun _ hr _ => Machine.registers_set_of_ne _ hr _⟩

/-- Negation compares with zero. -/
theorem executeAll_negateCode {a b : Register} (hab : a ≠ b) :
    ∃ k', k.executeAll world (negateCode a b) = some k' ∧
      k'.registers a = Word.ofBool (k.registers a = 0) ∧ ChangesOnly a b k k' := by
  refine ⟨_, rfl, ?_, rfl, ?_⟩
  · simp [Machine.flag, Machine.value, Machine.registers_set_of_ne, hab]
  · intro r ha hb
    rw [Machine.registers_set_of_ne _ ha]
    exact Machine.registers_set_of_ne _ hb _

/-- Negating a comparison leaves the opposite outcome. -/
theorem executeAll_compare_negate {a b x y : Register} (hab : a ≠ b) (flag : Flag) :
    ∃ k', k.executeAll world (compareCode a x y flag ++ negateCode a b) = some k' ∧
      k'.registers a = Word.ofBool
        (!{ k with compared := (k.registers x, k.registers y) : Machine μ }.flag world flag) ∧
      ChangesOnly a b k k' := by
  obtain ⟨k₁, h₁, hv₁, hc₁⟩ := executeAll_compareCode world k a x y flag
  obtain ⟨k₂, h₂, hv₂, hc₂⟩ := executeAll_negateCode world k₁ hab
  refine ⟨k₂, by rw [executeAll_append, h₁, Option.bind_some, h₂], ?_, (hc₁.weaken b).trans hc₂⟩
  rw [hv₂, hv₁]
  simp [Word.ofBool_eq_zero]

/-- The code of a binary operator leaves its value in the left register. -/
theorem executeAll_binaryCode {a b : Register} (hab : a ≠ b) (op : BinaryOp) :
    ∃ k', k.executeAll world (binaryCode a b op) = some k' ∧
      k'.registers a = op.apply world (k.registers a) (k.registers b) ∧ ChangesOnly a b k k' := by
  have direct (v : Word) : ChangesOnly a b k (k.set a v) := changesOnly_set k a b v
  cases op with
  | add => exact ⟨_, rfl, by simp [BinaryOp.apply, Machine.value], direct _⟩
  | sub => exact ⟨_, rfl, by simp [BinaryOp.apply, Machine.value], direct _⟩
  | mul => exact ⟨_, rfl, by simp [BinaryOp.apply], direct _⟩
  | div => exact ⟨_, rfl, by simp [BinaryOp.apply], direct _⟩
  | eq =>
    obtain ⟨k', h, hv, hc⟩ := executeAll_compareCode world k a a b .equal
    exact ⟨k', h, hv, hc.weaken b⟩
  | le =>
    obtain ⟨k', h, hv, hc⟩ := executeAll_compareCode world k a a b .lessEqual
    exact ⟨k', h, hv, hc.weaken b⟩
  | ge =>
    obtain ⟨k', h, hv, hc⟩ := executeAll_compareCode world k a b a .lessEqual
    exact ⟨k', h, hv, hc.weaken b⟩
  | ne =>
    obtain ⟨k', h, hv, hc⟩ := executeAll_compare_negate world k (x := a) (y := b) hab .equal
    refine ⟨k', h, ?_, hc⟩
    simpa [BinaryOp.apply, Machine.flag] using hv
  | lt => exact executeAll_compare_negate world k hab .lessEqual
  | gt => exact executeAll_compare_negate world k hab .lessEqual

/-- The code of a unary operator leaves its value in the result register. -/
theorem executeAll_unaryCode {a b : Register} (hab : a ≠ b) (op : UnaryOp) :
    ∃ k', k.executeAll world (unaryCode a b op) = some k' ∧
      k'.registers (unaryResult a b op).1 = op.apply world k.memory (k.registers a) ∧
      ChangesOnly a b k k' := by
  cases op with
  | not => exact executeAll_negateCode world k hab
  | neg =>
    refine ⟨_, rfl, ?_, rfl, ?_⟩
    · simp [unaryResult, UnaryOp.apply, Machine.value, Machine.registers_set_of_ne, hab]
    · intro r _ hb
      rw [Machine.registers_set_of_ne _ hb, Machine.registers_set_of_ne _ hb]
  | deref =>
    refine ⟨_, rfl, ?_, rfl, ?_⟩
    · simp [unaryResult, UnaryOp.apply, Machine.value, Machine.locate]
    · intro r _ hb
      rw [Machine.registers_set_of_ne _ hb]

end Code

/-! ### Whole expressions -/

/-- The lines at `pos` run through and leave a word in a register and a memory, and the registers
that a pool keeps. -/
def Computes (world : World μ) (lines : List Line) (p : RegisterPool) (k : Machine μ) (pos : Nat)
    (code : List Line) (r : Register) (v : Word) (m : μ) : Prop :=
  ∃ n k', Path world lines pos (pos + code.length) n ⟨pos, k⟩ ⟨pos + code.length, k'⟩ ∧
    k'.registers r = v ∧ k'.memory = m ∧ p.Keeps k k'

section Expressions

open Lowering Emitter

variable {world : World μ} {lines : List Line} {table : SymbolTable}

/-- A path through two stretches of lines, one behind the other. -/
theorem Path.append {pos n n' : Nat} {code code' : List Line} {k k' : Machine μ} {c : Config μ}
    (h : Path world lines pos (pos + code.length) n ⟨pos, k⟩ ⟨pos + code.length, k'⟩)
    (h' : Path world lines (pos + code.length) (pos + code.length + code'.length) n'
      ⟨pos + code.length, k'⟩ c) :
    Path world lines pos (pos + (code ++ code').length) (n + n') ⟨pos, k⟩ c := by
  have hlen : pos + (code ++ code').length = pos + code.length + code'.length := by
    rw [List.length_append]
    omega
  rw [hlen]
  exact (h.mono le_rfl (by omega)).trans (h'.mono (by omega) le_rfl)

theorem computes_code {p : RegisterPool} {k k' : Machine μ} {pos : Nat} {code : List Instruction}
    (hcode : CodeAt lines pos (code.map .instruction)) (h : k.executeAll world code = some k')
    (hkeep : p.Keeps k k') (r : Register) :
    Computes world lines p k pos (code.map .instruction) r (k'.registers r) k'.memory := by
  have hpath := path_code hcode h
  rw [← List.length_map (Line.instruction)] at hpath
  exact ⟨_, k', hpath, rfl, rfl, hkeep⟩

/-- Loading an operand into a register that was free. -/
theorem computes_load {s : Scratch} {em : Emission Scratch Register} {pos : Position}
    {source : Operand} {line : Nat} (h : load pos source s = .ok em)
    (hcode : CodeAt lines line em.lines) (k : Machine μ) :
    Computes world lines s.pool k line em.lines em.value (k.value world source) k.memory := by
  obtain ⟨i, hi, rfl⟩ := load_ok h
  have hfree := (RegisterPool.takes_of_free? hi).not_isKept
  have hc := changesOnly_set k (.general i) (.general i) (k.value world source)
  have hcode' : CodeAt lines line ([.mov (Register.general i) source].map .instruction) := hcode
  simpa using computes_code hcode' (executeAll_mov world k _ source) (hc.keeps hfree hfree)
    (.general i)

variable (world) in
/-- Loading a name gives its value. -/
theorem computes_loadName {s : Scratch} {em : Emission Scratch Register} {pos : Position}
    {x : String} {line : Nat} (h : loadName table pos x s = .ok em)
    (hcode : CodeAt lines line em.lines) (k : Machine μ) :
    ∃ symbol, table.lookup x = some symbol ∧
      Computes world lines s.pool k line em.lines em.value
        (symbol.value world (k.registers .sf) x k.memory) k.memory := by
  obtain ⟨symbol, i, hx, hi, rfl⟩ := loadName_ok h
  have hfree := (RegisterPool.takes_of_free? hi).not_isKept
  obtain ⟨k', hk', hv, hc⟩ := executeAll_nameCode world k (.general i) x symbol
  refine ⟨symbol, hx, ?_⟩
  rw [← hv, ← hc.1]
  exact computes_code hcode hk' (hc.keeps hfree hfree) (.general i)

/-- Only a variable that holds a word can be stored to. -/
theorem isScalar_of_storeAddress? {x : String} {symbol : Symbol} {address : Address}
    (h : storeAddress? x symbol = some address) : symbol.isScalar = true := by
  cases symbol with
  | stack offset ty constant => cases hty : ty.isArray <;> simp_all [storeAddress?, Symbol.isScalar]
  | static ty constant => cases hty : ty.isArray <;> simp_all [storeAddress?, Symbol.isScalar]
  | function arity defined => simp [storeAddress?] at h

/-- A store goes to where the symbol lies. -/
theorem locate_of_storeAddress? {x : String} {symbol : Symbol} {address : Address}
    (h : storeAddress? x symbol = some address) (k : Machine μ) :
    k.locate world address = symbol.location world (k.registers .sf) x := by
  cases symbol with
  | stack offset ty constant =>
    cases hty : ty.isArray <;> simp [storeAddress?, hty] at h
    subst h
    rfl
  | static ty constant =>
    cases hty : ty.isArray <;> simp [storeAddress?, hty] at h
    subst h
    rfl
  | function arity defined => simp [storeAddress?] at h

namespace Computes

variable {p q : RegisterPool} {k k₁ : Machine μ} {pos : Nat} {code code' : List Line}
  {a r : Register} {v w : Word} {m : μ}

/-- Lines that compute a value, behind lines that run through. -/
theorem after {n : Nat}
    (hpath : Path world lines pos (pos + code.length) n ⟨pos, k⟩ ⟨pos + code.length, k₁⟩)
    (hkeep : p.Keeps k k₁) (h : Computes world lines p k₁ (pos + code.length) code' r v m) :
    Computes world lines p k pos (code ++ code') r v m := by
  obtain ⟨n', k₂, hpath', hr, hm, hkeep'⟩ := h
  have hend : pos + code.length + code'.length = pos + (code ++ code').length := by
    rw [List.length_append]
    omega
  have hall := Path.append hpath hpath'
  rw [hend] at hall
  exact ⟨_, k₂, hall, hr, hm, hkeep.trans hkeep'⟩

theorem of_takes (ht : p.Takes a q) (h : Computes world lines q k pos code r v m) :
    Computes world lines p k pos code r v m := by
  obtain ⟨n, k', hpath, hr, hm, hkeep⟩ := h
  exact ⟨n, k', hpath, hr, hm, hkeep.of_takes ht⟩

/-- Storing a register behind the lines that compute it. -/
theorem store {address : Address} (h : Computes world lines p k pos code r v m)
    (hcode : CodeAt lines pos (code ++ [.instruction (.mov address r)]))
    (hw : ∀ k' : Machine μ, p.Keeps k k' → k'.locate world address = w) :
    Computes world lines p k pos (code ++ [.instruction (.mov address r)]) r v
      (world.write m w v) := by
  obtain ⟨n, k₁, hpath, hr, hm, hkeep⟩ := h
  have hmove : k₁.executeAll world [.mov address r] =
      some { k₁ with memory := world.write m w v } := by
    rw [← hw k₁ hkeep, ← hr, ← hm]
    rfl
  have hcode' : CodeAt lines (pos + code.length)
    ([Instruction.mov address r].map .instruction) := hcode.right
  exact after hpath hkeep ⟨_, _, path_code hcode' hmove, hr, rfl, fun _ _ => rfl⟩

end Computes

/-- The lines behind an operand leave for the end if the operand decides. -/
theorem path_operandTest (world : World μ) (hu : (labelsOf lines).Nodup) {op : LogicalOp}
    {r : Register} {done next : String} {pos target : Nat} (hdone : lineOf lines done = some target)
    (hcode : CodeAt lines pos (operandTest r done next op)) (k : Machine μ) :
    ∃ n, Path world lines pos (pos + (operandTest r done next op).length) n ⟨pos, k⟩
      ⟨if op.decides (k.registers r) then target
        else pos + (operandTest r done next op).length, k⟩ := by
  by_cases hr : k.registers r = 0
  · cases op with
    | or =>
      refine ⟨1, .one le_rfl (by simp [operandTest]) ?_⟩
      simpa [LogicalOp.decides, hr, operandTest] using step_jnz_of_zero hcode hr
    | and =>
      refine ⟨2, .step le_rfl (by simp [operandTest]) (step_jnz_of_zero hcode hr)
        (.one (by simp) (by simp [operandTest]) ?_)⟩
      simpa [LogicalOp.decides, hr] using step_jmp hcode.tail hdone
  · cases op with
    | or =>
      refine ⟨1, .one le_rfl (by simp [operandTest]) ?_⟩
      simpa [LogicalOp.decides, hr] using step_jnz_of_ne hcode hr hdone
    | and =>
      have hnext := lineOf_of_codeAt hu hcode.tail.tail
      refine ⟨2, .step le_rfl (by simp [operandTest]) (step_jnz_of_ne hcode hr hnext)
        (.one (by simp; omega) (by simp [operandTest]) ?_)⟩
      simpa [LogicalOp.decides, hr, operandTest] using step_label hcode.tail.tail

theorem path_mov (world : World μ) {pos : Nat} {r : Register} {v : Word}
    (hcode : CodeAt lines pos [.instruction (.mov r (.immediate v))]) (k : Machine μ) :
    Path world lines pos (pos + 1) 1 ⟨pos, k⟩ ⟨pos + 1, k.set r v⟩ :=
  .one le_rfl (Nat.lt_succ_self pos) (step_execute hcode rfl)

/-- At the end of a logical operator the result is set again, unless an operand decided. -/
theorem path_logicalEnd (world : World μ) {op : LogicalOp} {r : Register} {done : String}
    {pos : Nat} (hcode : CodeAt lines pos
      [.instruction (.mov r (.immediate (op.outcome false))), .label done])
    (k : Machine μ) (decided : Bool) (hr : k.registers r = op.outcome true) :
    ∃ n k', Path world lines pos (pos + 2) n ⟨if decided then pos + 1 else pos, k⟩ ⟨pos + 2, k'⟩ ∧
      k'.registers r = op.outcome decided ∧ ChangesOnly r r k k' := by
  cases decided with
  | true =>
    exact ⟨1, k, .one (by simp) (by simp) (step_label hcode.tail), hr, rfl, fun _ _ _ => rfl⟩
  | false =>
    refine ⟨2, k.set r (op.outcome false), .step le_rfl (by simp) (step_execute hcode rfl)
      (.one (by simp) (by simp) (step_label hcode.tail)), by simp, changesOnly_set k r r _⟩

mutual

/-- The lines of an expression without calls compute its value. -/
theorem lowerExpr_computes (hu : (labelsOf lines).Nodup) : ∀ (e : Expr) {s : Scratch}
    {em : Emission Scratch Register} {pos : Nat}, lowerExpr table e s = .ok em →
    e.isCallFree = true → CodeAt lines pos em.lines → ∀ k : Machine μ,
    ∃ v m, e.eval world (k.registers .sf) table s.strings.length k.memory = some (v, m) ∧
      Computes world lines s.pool k pos em.lines em.value v m
  | .number _ v, _, _, _, h, _, hcode, k =>
    ⟨v, k.memory, by rw [Expr.eval], computes_load (by rwa [lowerExpr] at h) hcode k⟩
  | .character _ v, _, _, _, h, _, hcode, k =>
    ⟨v, k.memory, by rw [Expr.eval], computes_load (by rwa [lowerExpr] at h) hcode k⟩
  | .bool _ b, _, _, _, h, _, hcode, k =>
    ⟨Word.ofBool b, k.memory, by rw [Expr.eval], computes_load (by rwa [lowerExpr] at h) hcode k⟩
  | .text _ content, s, em, _, h, _, hcode, k => by
    rw [lowerExpr, bind_eq_ok_iff] at h
    obtain ⟨_, second, hkeep, h, rfl⟩ := h
    cases hkeep
    refine ⟨_, k.memory, by rw [Expr.eval], ?_⟩
    exact computes_load h hcode k
  | .name _ x, _, _, _, h, _, hcode, k => by
    obtain ⟨symbol, hx, hcomp⟩ := computes_loadName world (by rwa [lowerExpr] at h) hcode k
    exact ⟨_, _, by simp [Expr.eval, hx], hcomp⟩
  | .assign _ target value, s, em, pos, h, hcall, hcode, k => by
    simp only [Expr.isCallFree, Bool.and_eq_true] at hcall
    obtain ⟨place, hp⟩ := lowerExpr_assign_ok h
    cases place with
    | named at_ x =>
      obtain ⟨symbol, address, a, hx, haddr, ha, rfl⟩ := lowerExpr_assign_named_ok hp h
      obtain ⟨v, m, hev, hcomp⟩ := lowerExpr_computes hu value ha hcall.2 hcode.left k
      have hscalar := isScalar_of_storeAddress? haddr
      refine ⟨v, world.write m (symbol.location world (k.registers .sf) x) v,
        by simp [Expr.eval, hp, hx, hev, hscalar], hcomp.store hcode ?_⟩
      intro k' hkeep
      rw [locate_of_storeAddress? haddr k', hkeep.sf]
    | pointee at_ x =>
      obtain ⟨a, b, ha, hb, rfl⟩ := lowerExpr_assign_pointee_ok hp h
      have htakes := loadName_takes ha
      obtain ⟨symbol, hx, hload⟩ := computes_loadName world ha hcode.left k
      obtain ⟨n, k₁, hpath, hr, hm, hkeep⟩ := hload
      obtain ⟨v, m, hev, hcomp⟩ := lowerExpr_computes hu value hb hcall.2 hcode.right.left k₁
      have hstrings : a.state.strings = s.strings := by
        obtain ⟨_, _, -, -, rfl⟩ := loadName_ok ha
        rfl
      rw [hm, hkeep.sf, hstrings] at hev
      refine ⟨v, world.write m (symbol.value world (k.registers .sf) x k.memory) v,
        by simp [Expr.eval, hp, hx, hev], ?_⟩
      refine Computes.after hpath hkeep (Computes.of_takes htakes (hcomp.store hcode.right ?_))
      -- the register of the pointer is in use while the value is computed
      intro k' hkeep'
      exact (hkeep' _ htakes.isKept_result).trans hr
  | .binary _ op left right, s, em, pos, h, hcall, hcode, k => by
    simp only [Expr.isCallFree, Bool.and_eq_true] at hcall
    obtain ⟨a, b, ha, hb, rfl⟩ := lowerExpr_binary_ok h
    have hta := lowerExpr_takes left ha
    have htb := lowerExpr_takes right hb
    obtain ⟨x, m₁, hx, n₁, k₁, hp₁, hr₁, hm₁, hk₁⟩ :=
      lowerExpr_computes hu left ha hcall.1 hcode.left k
    obtain ⟨y, m₂, hy, n₂, k₂, hp₂, hr₂, hm₂, hk₂⟩ :=
      lowerExpr_computes hu right hb hcall.2 hcode.right.left k₁
    obtain ⟨k₃, hrun, hr₃, hc⟩ := executeAll_binaryCode world k₂ (hta.ne htb) op
    rw [hm₁, hk₁.sf, lowerExpr_strings left ha, List.length_append] at hy
    have hleft : k₂.registers a.value = x := (hk₂ _ hta.isKept_result).trans hr₁
    have hkeep : s.pool.Keeps k₂ k₃ := hc.keeps hta.not_isKept (htb.not_isKept_before hta)
    have hlast := computes_code hcode.right.right hrun hkeep a.value
    rw [hr₃, hc.1, hleft, hr₂, hm₂] at hlast
    exact ⟨_, m₂, by simp [Expr.eval, hx, hy],
      Computes.after hp₁ hk₁ (Computes.after hp₂ (hk₂.of_takes hta) hlast)⟩
  | .unary _ op operand, s, em, pos, h, hcall, hcode, k => by
    obtain ⟨a, i, ha, hi, rfl⟩ := lowerExpr_unary_ok h
    have hta := lowerExpr_takes operand ha
    have hti := RegisterPool.takes_of_free? hi
    obtain ⟨x, m₁, hx, n₁, k₁, hp₁, hr₁, hm₁, hk₁⟩ :=
      lowerExpr_computes hu operand ha (by simpa [Expr.isCallFree] using hcall) hcode.left k
    obtain ⟨k₂, hrun, hr₂, hc⟩ := executeAll_unaryCode world k₁ (hta.ne hti) op
    have hkeep : s.pool.Keeps k₁ k₂ := hc.keeps hta.not_isKept (hti.not_isKept_before hta)
    have hlast := computes_code hcode.right hrun hkeep (unaryResult a.value (.general i) op).1
    rw [hr₂, hc.1, hr₁, hm₁] at hlast
    exact ⟨_, m₁, by simp [Expr.eval, hx], Computes.after hp₁ hk₁ hlast⟩
  | .logical _ op operands, s, em, pos, h, hcall, hcode, k => by
    obtain ⟨i, c, hi, hc, rfl⟩ := lowerExpr_logical_ok h
    have htakes := RegisterPool.takes_of_free? hi
    have hend := hcode.right.right
    have hdone := lineOf_of_codeAt hu hend.tail
    have hset (k : Machine μ) (v : Word) : s.pool.Keeps k (k.set (.general i) v) :=
      (changesOnly_set k _ _ v).keeps htakes.not_isKept htakes.not_isKept
    have hfirst := path_mov world hcode.left k
    obtain ⟨decided, m, hev, n, k₁, hpath, hm, hkeep⟩ := lowerOperands_computes hu hdone op operands
      hc (by simpa [Expr.isCallFree] using hcall) hcode.right.left
      (k.set (.general i) (op.outcome true))
    rw [(hset k _).sf] at hev
    -- the result was set beforehand and is in use while the operands run
    have hr : k₁.registers (.general i) = op.outcome true :=
      (hkeep _ htakes.isKept_result).trans (k.registers_set_self _ _)
    obtain ⟨n', k₂, hpath', hr₂, hc₂⟩ := path_logicalEnd world hend k₁ decided hr
    refine ⟨op.outcome decided, m, by rw [Expr.eval]; simp_all, ?_⟩
    refine Computes.after hfirst (hset k _) ⟨n + n', k₂, ?_, hr₂, hc₂.1.trans hm,
      (hkeep.of_takes htakes).trans (hc₂.keeps htakes.not_isKept htakes.not_isKept)⟩
    rw [List.length_append, ← Nat.add_assoc]
    exact (hpath.mono le_rfl (by omega)).trans (hpath'.mono (by omega) le_rfl)
  | .call .., _, _, _, _, hcall, _, _ => by simp [Expr.isCallFree] at hcall

/-- The operands of a logical operator leave for its end as soon as one of them decides. -/
theorem lowerOperands_computes (hu : (labelsOf lines).Nodup) {done : String} {target : Nat}
    (hdone : lineOf lines done = some target) : ∀ (op : LogicalOp) (es : List Expr) {s : Scratch}
    {em : Emission Scratch Unit} {pos : Nat}, lowerOperands table done op es s = .ok em →
    Expr.areCallFree es = true → CodeAt lines pos em.lines → ∀ k : Machine μ,
    ∃ decided m, Expr.evalOperands world (k.registers .sf) table s.strings.length op es k.memory =
        some (decided, m) ∧
      ∃ n k', Path world lines pos (pos + em.lines.length) n ⟨pos, k⟩
          ⟨if decided then target else pos + em.lines.length, k'⟩ ∧
        k'.memory = m ∧ s.pool.Keeps k k'
  | op, [], s, em, pos, h, _, _, k => by
    rw [lowerOperands_nil_ok h]
    exact ⟨false, k.memory, by rw [Expr.evalOperands], 0, k, .refl _, rfl, .refl _ k⟩
  | op, e :: es, s, em, pos, h, hcall, hcode, k => by
    simp only [Expr.areCallFree, Bool.and_eq_true] at hcall
    obtain ⟨a, c, ha, hc, rfl⟩ := lowerOperands_cons_ok h
    have hta := lowerExpr_takes e ha
    obtain ⟨v, m₁, hv, n₁, k₁, hp₁, hr₁, hm₁, hk₁⟩ :=
      lowerExpr_computes hu e ha hcall.1 hcode.left k
    obtain ⟨n₂, hp₂⟩ := path_operandTest world hu hdone hcode.right.left k₁
    rw [hr₁] at hp₂
    cases hd : op.decides v with
    | true =>
      rw [if_pos hd] at hp₂
      refine ⟨true, m₁, by rw [Expr.evalOperands]; simp [hv, hd], n₁ + n₂, k₁, ?_, hm₁, hk₁⟩
      exact (Path.append hp₁ hp₂).mono le_rfl (by simp)
    | false =>
      obtain ⟨decided, m, hev, n₃, k₂, hp₃, hm₂, hk₂⟩ :=
        lowerOperands_computes hu hdone op es hc hcall.2 hcode.right.right k₁
      rw [hk₁.sf, hm₁, lowerExpr_strings e ha, List.length_append] at hev
      rw [hta.free_eq] at hk₂
      rw [hd, if_neg Bool.false_ne_true] at hp₂
      have hall := Path.append hp₁ (Path.append hp₂ hp₃)
      refine ⟨decided, m, by rw [Expr.evalOperands]; simp [hv, hd, hev], n₁ + (n₂ + n₃), k₂, ?_,
        hm₂, hk₁.trans hk₂⟩
      simpa [Nat.add_assoc] using hall

end

/-- The lines of an expression without calls, in any listing with distinct labels, run from their
first line to behind their last. The result register then holds the value of the expression, the
memory is the one that its evaluation leaves, and the registers in use keep their words. -/
theorem lowerExpr_preserves_meaning (world : World μ) (table : SymbolTable) (e : Expr) (s : Scratch)
    (em : Emission Scratch Register) (before after : List Line) (k : Machine μ)
    (h : lowerExpr table e s = .ok em) (hcall : e.isCallFree = true)
    (hu : (labelsOf (before ++ (em.lines ++ after))).Nodup) :
    ∃ v m n k', e.eval world (k.registers .sf) table s.strings.length k.memory = some (v, m) ∧
      Path world (before ++ (em.lines ++ after)) before.length (before.length + em.lines.length) n
        ⟨before.length, k⟩ ⟨before.length + em.lines.length, k'⟩ ∧
      k'.registers em.value = v ∧ k'.memory = m ∧ s.pool.Keeps k k' := by
  have hcode : CodeAt (before ++ (em.lines ++ after)) before.length em.lines :=
    ⟨before, after, rfl, rfl⟩
  obtain ⟨v, m, hev, n, k', hrun⟩ := lowerExpr_computes hu e h hcall hcode k
  exact ⟨v, m, n, k', hev, hrun⟩

/-- The lines of `*p = 0 || !p`, where `p` is a variable of the file that holds 7: no operand
decides, and 0 is stored at 7. -/
theorem lowerExpr_preserves_meaning_store_or :
    let em : Emission Scratch Register := ⟨.general 1,
      [.instruction (.mov (Register.general 0) (Address.label "p")),
       .instruction (.mov (Register.general 1) (.immediate 1)),
       .instruction (.mov (Register.general 2) (.immediate 0)),
       .instruction (.jnz (.general 2) "L0"),
       .instruction (.mov (Register.general 2) (Address.label "p")),
       .instruction (.mov (Register.general 3) (.immediate 0)),
       .instruction (.cmp (.general 2) (.general 3)),
       .instruction (.flg (.general 2) .equal),
       .instruction (.jnz (.general 2) "L0"),
       .instruction (.mov (Register.general 1) (.immediate 0)),
       .label "L0",
       .instruction (.mov (Address.register (.general 0)) (Register.general 1))],
      ⟨RegisterPool.empty.set 1 true, 1, []⟩⟩
    lowerExpr ⟨[("p", .static (.pointer .int) false)], []⟩
        (.assign default (.unary default .deref (.name default "p"))
          (.logical default .or [.number default 0, .unary default .not (.name default "p")]))
        .empty = .ok em ∧
      (labelsOf ([.label "main"] ++ (em.lines ++ [.instruction .ret]))).Nodup ∧
      ∃ n k', Path (World.flat fun _ => 100) ([.label "main"] ++ (em.lines ++ [.instruction .ret]))
          1 13 n ⟨1, ⟨fun _ => 0, (0, 0), fun _ => 7⟩⟩ ⟨13, k'⟩ ∧
        k'.registers (.general 1) = 0 ∧ k'.memory = Function.update (fun _ => 7) 7 0 := by
  intro em
  have hlower : lowerExpr ⟨[("p", .static (.pointer .int) false)], []⟩
      (.assign default (.unary default .deref (.name default "p"))
        (.logical default .or [.number default 0, .unary default .not (.name default "p")]))
      .empty = .ok em := by
    decide +kernel
  have hu : (labelsOf ([.label "main"] ++ (em.lines ++ [.instruction .ret]))).Nodup := by decide
  obtain ⟨v, m, n, k', hev, hpath, hv, hm, -⟩ := lowerExpr_preserves_meaning
    (World.flat fun _ => 100) _ _ _ em [.label "main"] [.instruction .ret]
    ⟨fun _ => 0, (0, 0), fun _ => 7⟩ hlower (by decide) hu
  have hvm : some (v, m) = some (0, Function.update (fun _ => 7) 7 0) := by
    rw [← hev]
    rfl
  cases hvm
  exact ⟨hlower, hu, n, k', hpath, hv, hm⟩

end Expressions

end WordC
