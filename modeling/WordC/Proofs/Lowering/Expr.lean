import WordC.Lowering.Expr
import WordC.Proofs.Lowering.Emitter
import WordC.Proofs.Syntax

/-!
# Runs of the lowering of expressions

What a successful run consists of, node by node: the runs on the operands, the lines that are put
between theirs, and the state that is left. Everything that is said later about the lines of an
expression goes through these equivalences.

Two facts follow at once for all expressions:

* `lowerExpr_takes`: the result is in a register that was free, and the pool is the old one with
  that register;
* `lowerExpr_strings`: the texts kept are the literals of the expression, in order.
-/

namespace WordC

/-- The first pool becomes the second by taking a free general register. -/
def RegisterPool.Takes (p : RegisterPool) (r : Register) (q : RegisterPool) : Prop :=
  ∃ i, r = .general i ∧ p.isLive i = false ∧ q = p.set i true

namespace RegisterPool

variable {p q q' : RegisterPool} {a b : Register}

theorem takes_of_free? {i : Fin generalCount} (h : p.free? = some i) :
    p.Takes (.general i) (p.set i true) :=
  ⟨i, rfl, isLive_of_free? h, rfl⟩

/-- Giving back the register that was taken last restores the pool. -/
theorem Takes.free_eq (h : p.Takes a q) : q.free a = p := by
  obtain ⟨i, rfl, hi, rfl⟩ := h
  exact set_set_of_isLive hi true

/-- Giving back the first of two registers leaves the pool with the second. -/
theorem Takes.free_first (h : p.Takes a q) (h' : q.Takes b q') : p.Takes b (q'.free a) := by
  obtain ⟨i, rfl, hi, rfl⟩ := h
  obtain ⟨j, rfl, hj, rfl⟩ := h'
  have hne : i ≠ j := by
    rintro rfl
    simp [isLive_set] at hj
  refine ⟨j, rfl, ?_, ext_isLive fun k => ?_⟩
  · simpa [isLive_set, hne] using hj
  · simp only [free, isLive_set]
    by_cases hk : i = k
    · subst hk
      simp [hi, Ne.symm hne]
    · simp [hk]

theorem Takes.ne (h : p.Takes a q) (h' : q.Takes b q') : a ≠ b := by
  obtain ⟨i, rfl, hi, rfl⟩ := h
  obtain ⟨j, rfl, hj, rfl⟩ := h'
  rintro ⟨⟩
  simp [isLive_set] at hj

theorem Takes.ne_sp (h : p.Takes a q) : a ≠ .sp := by
  obtain ⟨i, rfl, -, -⟩ := h
  nofun

theorem mem_live {r : Register} : r ∈ p.live ↔ ∃ i, r = .general i ∧ p.isLive i = true := by
  simp only [live, List.mem_map, List.mem_filter, List.mem_finRange, true_and]
  constructor
  · rintro ⟨i, hi, rfl⟩
    exact ⟨i, rfl, hi⟩
  · rintro ⟨i, rfl, hi⟩
    exact ⟨i, hi, rfl⟩

/-- The register that was taken is in use. -/
theorem Takes.mem_live (h : p.Takes a q) : a ∈ q.live := by
  obtain ⟨i, rfl, -, rfl⟩ := h
  exact RegisterPool.mem_live.2 ⟨i, rfl, by simp [isLive_set]⟩

/-- The register that was taken was not in use. -/
theorem Takes.not_mem_live (h : p.Takes a q) : a ∉ p.live := by
  obtain ⟨i, rfl, hi, -⟩ := h
  intro hmem
  obtain ⟨j, hj, hlive⟩ := RegisterPool.mem_live.1 hmem
  cases hj
  rw [hi] at hlive
  cases hlive

/-- What was in use stays in use. -/
theorem Takes.live_subset (h : p.Takes a q) : p.live ⊆ q.live := by
  obtain ⟨i, rfl, -, rfl⟩ := h
  intro r hr
  obtain ⟨j, rfl, hj⟩ := RegisterPool.mem_live.1 hr
  refine RegisterPool.mem_live.2 ⟨j, rfl, ?_⟩
  rw [isLive_set]
  split
  · rfl
  · exact hj

end RegisterPool

namespace Lowering
open Emitter

variable {table : SymbolTable} {s : Scratch}

/-! ### Single steps -/

theorem alloc_apply (pos : Position) :
    alloc pos s = match s.pool.alloc? with
      | some (r, pool) => .ok ⟨r, [], { s with pool }⟩
      | none => .error ⟨pos, .outOfRegisters⟩ := by
  rw [alloc, change_apply]
  cases s.pool.alloc? <;> rfl

theorem alloc_eq_ok_iff {pos : Position} {em : Emission Scratch Register} :
    alloc pos s = .ok em ↔ ∃ i, s.pool.free? = some i ∧
      em = ⟨.general i, [], { s with pool := s.pool.set i true }⟩ := by
  rw [alloc_apply, RegisterPool.alloc?]
  cases h : s.pool.free? with
  | none => simp
  | some i => simp [eq_comm]

theorem newLabel_eq_ok_iff {em : Emission Scratch String} :
    newLabel s = .ok em ↔ em = ⟨flowLabel s.labels, [], { s with labels := s.labels + 1 }⟩ := by
  simp [newLabel, change_eq_ok_iff]

theorem resolve_eq_ok_iff {σ : Type} {t : σ} {pos : Position} {x : String}
    {em : Emission σ Symbol} :
    resolve table pos x t = .ok em ↔ ∃ symbol, table.lookup x = some symbol ∧
      em = ⟨symbol, [], t⟩ := by
  unfold resolve
  cases h : table.lookup x <;> simp

theorem store_eq_ok_iff {σ : Type} {t : σ} {pos : Position} {x : String} {symbol : Symbol}
    {r : Register} {em : Emission σ Unit} :
    store pos x symbol r t = .ok em ↔ ∃ address, storeAddress? x symbol = some address ∧
      em = ⟨(), [.instruction (.mov address r)], t⟩ := by
  unfold store
  cases h : storeAddress? x symbol <;> simp

theorem release_eq_ok_iff {r : Register} {em : Emission Scratch Unit} :
    release r s = .ok em ↔ em = ⟨(), [], { s with pool := s.pool.free r }⟩ := modify_eq_ok_iff

theorem emitCode_eq_ok_iff {σ : Type} {t : σ} {code : List Instruction} {em : Emission σ Unit} :
    emitCode code t = .ok em ↔ em = ⟨(), code.map .instruction, t⟩ := emitLines_eq_ok_iff

theorem load_ok {pos : Position} {source : Operand} {em : Emission Scratch Register}
    (h : load pos source s = .ok em) :
    ∃ i, s.pool.free? = some i ∧
      em = ⟨.general i, [.instruction (.mov (Register.general i) source)],
        { s with pool := s.pool.set i true }⟩ := by
  simp only [load, bind_eq_ok_iff, alloc_eq_ok_iff, emit_eq_ok_iff, pure_eq_ok_iff] at h
  obtain ⟨_, _, ⟨i, hi, rfl⟩, ⟨_, _, rfl, rfl, rfl⟩, rfl⟩ := h
  exact ⟨i, hi, rfl⟩

theorem loadName_ok {pos : Position} {x : String} {em : Emission Scratch Register}
    (h : loadName table pos x s = .ok em) :
    ∃ symbol i, table.lookup x = some symbol ∧ s.pool.free? = some i ∧
      em = ⟨.general i, (nameCode (.general i) x symbol).map .instruction,
        { s with pool := s.pool.set i true }⟩ := by
  simp only [loadName, bind_eq_ok_iff, resolve_eq_ok_iff, alloc_eq_ok_iff, emitCode_eq_ok_iff,
    pure_eq_ok_iff] at h
  obtain ⟨_, _, ⟨symbol, hx, rfl⟩, ⟨_, _, ⟨i, hi, rfl⟩, ⟨_, _, rfl, rfl, rfl⟩, rfl⟩, rfl⟩ := h
  exact ⟨symbol, i, hx, hi, by simp⟩

/-- The code of a unary operator on `source` with the help of `r`. -/
def unaryCode (source r : Register) : UnaryOp → List Instruction
  | .not => negateCode source r
  | .neg => [.mov r (.immediate 0), .sub r source]
  | .deref => [.mov r (Address.register source)]

/-- Where a unary operator leaves its result, and the register that it gives back. -/
def unaryResult (source r : Register) : UnaryOp → Register × Register
  | .not => (source, r)
  | .neg | .deref => (r, source)

theorem applyUnary_eq (pos : Position) (op : UnaryOp) (source : Register) :
    applyUnary pos op source = (do
      let r ← alloc pos
      emitCode (unaryCode source r op)
      release (unaryResult source r op).2
      pure (unaryResult source r op).1) := by
  cases op <;> rfl

theorem applyUnary_ok {pos : Position} {op : UnaryOp} {source : Register}
    {em : Emission Scratch Register} (h : applyUnary pos op source s = .ok em) :
    ∃ i, s.pool.free? = some i ∧
      em = ⟨(unaryResult source (.general i) op).1,
        (unaryCode source (.general i) op).map .instruction,
        { s with pool := (s.pool.set i true).free (unaryResult source (.general i) op).2 }⟩ := by
  rw [applyUnary_eq] at h
  simp only [bind_eq_ok_iff, alloc_eq_ok_iff, emitCode_eq_ok_iff, release_eq_ok_iff,
    pure_eq_ok_iff] at h
  obtain ⟨_, _, ⟨i, hi, rfl⟩, ⟨_, _, rfl, ⟨_, _, rfl, rfl, rfl⟩, rfl⟩, rfl⟩ := h
  exact ⟨i, hi, by simp⟩

/-! ### Nodes -/

theorem lowerExpr_text_ok {pos : Position} {content : String} {em : Emission Scratch Register}
    (h : lowerExpr table (.text pos content) s = .ok em) :
    ∃ i, s.pool.free? = some i ∧
      em = ⟨.general i,
        [.instruction (.mov (Register.general i) (.label (stringLabel s.strings.length)))],
        { s with pool := s.pool.set i true, strings := s.strings ++ [content] }⟩ := by
  rw [lowerExpr, bind_eq_ok_iff] at h
  obtain ⟨_, second, hkeep, h, rfl⟩ := h
  cases hkeep
  obtain ⟨i, hi, rfl⟩ := load_ok h
  exact ⟨i, hi, rfl⟩

/-- An assignment to a variable evaluates the value and stores it. -/
theorem lowerExpr_assign_named_ok {pos at_ : Position} {x : String} {target value : Expr}
    {em : Emission Scratch Register} (hp : target.place? = some (.named at_ x))
    (h : lowerExpr table (.assign pos target value) s = .ok em) :
    ∃ symbol address a, table.lookup x = some symbol ∧ storeAddress? x symbol = some address ∧
      lowerExpr table value s = .ok a ∧
      em = ⟨a.value, a.lines ++ [.instruction (.mov address a.value)], a.state⟩ := by
  rw [lowerExpr, hp] at h
  simp only [bind_eq_ok_iff, resolve_eq_ok_iff] at h
  obtain ⟨_, _, ⟨symbol, hx, rfl⟩, h, rfl⟩ := h
  split at h
  · simp at h
  · simp only [bind_eq_ok_iff, store_eq_ok_iff, pure_eq_ok_iff] at h
    obtain ⟨a, _, ha, ⟨_, _, ⟨address, haddr, rfl⟩, rfl, rfl⟩, rfl⟩ := h
    exact ⟨symbol, address, a, hx, haddr, ha, by simp⟩

/-- Only what is not constant is assigned to. -/
theorem isConstant_of_lowerExpr_assign {pos at_ : Position} {x : String} {target value : Expr}
    {symbol : Symbol} {em : Emission Scratch Register} (hp : target.place? = some (.named at_ x))
    (hx : table.lookup x = some symbol)
    (h : lowerExpr table (.assign pos target value) s = .ok em) : symbol.isConstant = false := by
  rw [lowerExpr, hp] at h
  simp only [bind_eq_ok_iff, resolve_eq_ok_iff, hx, Option.some.injEq] at h
  obtain ⟨_, _, ⟨_, rfl, rfl⟩, h, rfl⟩ := h
  cases hc : symbol.isConstant with
  | false => rfl
  | true => simp [hc] at h

/-- An assignment through a pointer evaluates the pointer first. -/
theorem lowerExpr_assign_pointee_ok {pos at_ : Position} {x : String} {target value : Expr}
    {em : Emission Scratch Register} (hp : target.place? = some (.pointee at_ x))
    (h : lowerExpr table (.assign pos target value) s = .ok em) :
    ∃ a b, loadName table at_ x s = .ok a ∧ lowerExpr table value a.state = .ok b ∧
      em = ⟨b.value,
        a.lines ++ (b.lines ++ [.instruction (.mov (Address.register a.value) b.value)]),
        { b.state with pool := b.state.pool.free a.value }⟩ := by
  rw [lowerExpr, hp] at h
  simp only [bind_eq_ok_iff, emit_eq_ok_iff, release_eq_ok_iff, pure_eq_ok_iff] at h
  obtain ⟨a, _, ha, ⟨b, _, hb, ⟨_, _, rfl, ⟨_, _, rfl, rfl, rfl⟩, rfl⟩, rfl⟩, rfl⟩ := h
  exact ⟨a, b, ha, hb, rfl⟩

theorem lowerExpr_assign_ok {pos : Position} {target value : Expr}
    {em : Emission Scratch Register} (h : lowerExpr table (.assign pos target value) s = .ok em) :
    ∃ place, target.place? = some place := by
  cases hp : target.place? with
  | none => rw [lowerExpr, hp] at h; simp at h
  | some place => exact ⟨place, rfl⟩

theorem lowerExpr_binary_ok {pos : Position} {op : BinaryOp} {left right : Expr}
    {em : Emission Scratch Register} (h : lowerExpr table (.binary pos op left right) s = .ok em) :
    ∃ a b, lowerExpr table left s = .ok a ∧ lowerExpr table right a.state = .ok b ∧
      em = ⟨a.value, a.lines ++ (b.lines ++ (binaryCode a.value b.value op).map .instruction),
        { b.state with pool := b.state.pool.free b.value }⟩ := by
  rw [lowerExpr] at h
  simp only [bind_eq_ok_iff, emitCode_eq_ok_iff, release_eq_ok_iff, pure_eq_ok_iff] at h
  obtain ⟨a, _, ha, ⟨b, _, hb, ⟨_, _, rfl, ⟨_, _, rfl, rfl, rfl⟩, rfl⟩, rfl⟩, rfl⟩ := h
  exact ⟨a, b, ha, hb, by simp⟩

theorem lowerExpr_unary_ok {pos : Position} {op : UnaryOp} {operand : Expr}
    {em : Emission Scratch Register} (h : lowerExpr table (.unary pos op operand) s = .ok em) :
    ∃ a i, lowerExpr table operand s = .ok a ∧ a.state.pool.free? = some i ∧
      em = ⟨(unaryResult a.value (.general i) op).1,
        a.lines ++ (unaryCode a.value (.general i) op).map .instruction,
        { a.state with
          pool := (a.state.pool.set i true).free (unaryResult a.value (.general i) op).2 }⟩ := by
  rw [lowerExpr, bind_eq_ok_iff] at h
  obtain ⟨a, _, ha, h, rfl⟩ := h
  obtain ⟨i, hi, rfl⟩ := applyUnary_ok h
  exact ⟨a, i, ha, hi, rfl⟩

/-- The operands of a logical operator. -/
def lowerOperands (table : SymbolTable) (done : String) : LogicalOp → List Expr →
    Emitter Scratch Unit
  | .or => lowerOr table done
  | .and => lowerAnd table done

theorem lowerExpr_logical (table : SymbolTable) (pos : Position) (op : LogicalOp)
    (operands : List Expr) :
    lowerExpr table (.logical pos op operands) = (do
      let done ← newLabel
      let r ← alloc pos
      emit (.mov r (.immediate (op.outcome true)))
      lowerOperands table done op operands
      emit (.mov r (.immediate (op.outcome false)))
      emitLabel done
      pure r) := by
  cases op <;> rfl

theorem lowerExpr_logical_ok {pos : Position} {op : LogicalOp} {operands : List Expr}
    {em : Emission Scratch Register} (h : lowerExpr table (.logical pos op operands) s = .ok em) :
    ∃ i c, s.pool.free? = some i ∧
      lowerOperands table (flowLabel s.labels) op operands
        { s with pool := s.pool.set i true, labels := s.labels + 1 } = .ok c ∧
      em = ⟨.general i,
        [.instruction (.mov (Register.general i) (.immediate (op.outcome true)))] ++ (c.lines ++
          [.instruction (.mov (Register.general i) (.immediate (op.outcome false))),
           .label (flowLabel s.labels)]),
        c.state⟩ := by
  rw [lowerExpr_logical] at h
  simp only [bind_eq_ok_iff, newLabel_eq_ok_iff, alloc_eq_ok_iff, emit_eq_ok_iff,
    emitLabel_eq_ok_iff, pure_eq_ok_iff] at h
  obtain ⟨_, _, rfl, ⟨_, _, ⟨i, hi, rfl⟩, ⟨_, _, rfl, ⟨c, _, hc, ⟨_, _, rfl,
    ⟨_, _, rfl, rfl, rfl⟩, rfl⟩, rfl⟩, rfl⟩, rfl⟩, rfl⟩ := h
  exact ⟨i, c, hi, hc, rfl⟩

theorem lowerOperands_nil_ok {done : String} {op : LogicalOp} {em : Emission Scratch Unit}
    (h : lowerOperands table done op [] s = .ok em) : em = ⟨(), [], s⟩ := by
  cases op with
  | or => rwa [lowerOperands, lowerOr, pure_eq_ok_iff] at h
  | and => rwa [lowerOperands, lowerAnd, pure_eq_ok_iff] at h

/-- The labels that an operand takes beside its own; a conjunct has one behind it. -/
def operandLabels : LogicalOp → Nat
  | .or => 0
  | .and => 1

/-- The lines behind an operand, which leave for `done` if it decides. -/
def operandTest (r : Register) (done next : String) : LogicalOp → List Line
  | .or => [.instruction (.jnz r done)]
  | .and => [.instruction (.jnz r next), .instruction (.jmp done), .label next]

theorem lowerOperands_cons_ok {done : String} {op : LogicalOp} {e : Expr} {es : List Expr}
    {em : Emission Scratch Unit} (h : lowerOperands table done op (e :: es) s = .ok em) :
    ∃ a c, lowerExpr table e { s with labels := s.labels + operandLabels op } = .ok a ∧
      lowerOperands table done op es { a.state with pool := a.state.pool.free a.value } = .ok c ∧
      em = ⟨(), a.lines ++ (operandTest a.value done (flowLabel s.labels) op ++ c.lines),
        c.state⟩ := by
  cases op with
  | or =>
    rw [lowerOperands, lowerOr] at h
    simp only [bind_eq_ok_iff, emit_eq_ok_iff, release_eq_ok_iff] at h
    obtain ⟨a, _, ha, ⟨_, _, rfl, ⟨_, c, rfl, hc, rfl⟩, rfl⟩, rfl⟩ := h
    exact ⟨a, c, ha, hc, rfl⟩
  | and =>
    rw [lowerOperands, lowerAnd] at h
    simp only [bind_eq_ok_iff, newLabel_eq_ok_iff, emit_eq_ok_iff, release_eq_ok_iff,
      emitLabel_eq_ok_iff] at h
    obtain ⟨_, _, rfl, ⟨a, _, ha, ⟨_, _, rfl, ⟨_, _, rfl, ⟨_, _, rfl, ⟨_, c, rfl, hc, rfl⟩, rfl⟩,
      rfl⟩, rfl⟩, rfl⟩, rfl⟩ := h
    exact ⟨a, c, ha, hc, rfl⟩

theorem lowerArguments_nil_ok {em : Emission Scratch Unit}
    (h : lowerArguments table [] s = .ok em) : em = ⟨(), [], s⟩ := by
  rwa [lowerArguments, pure_eq_ok_iff] at h

theorem lowerArguments_cons_ok {e : Expr} {es : List Expr} {em : Emission Scratch Unit}
    (h : lowerArguments table (e :: es) s = .ok em) :
    ∃ a c, lowerExpr table e s = .ok a ∧
      lowerArguments table es { a.state with pool := a.state.pool.free a.value } = .ok c ∧
      em = ⟨(), a.lines ++ ([.instruction (.push a.value)] ++ c.lines), c.state⟩ := by
  rw [lowerArguments] at h
  simp only [bind_eq_ok_iff, emit_eq_ok_iff, release_eq_ok_iff] at h
  obtain ⟨a, _, ha, ⟨_, _, rfl, ⟨_, c, rfl, hc, rfl⟩, rfl⟩, rfl⟩ := h
  exact ⟨a, c, ha, hc, by simp⟩

/-- The code of a call behind its arguments, up to the move of the result. -/
def callCode (saved : List Register) (target : Register) (count : Nat) : List Instruction :=
  .call target :: (dropArguments count ++ saved.reverse.map .pop)

theorem lowerExpr_call_ok {pos : Position} {callee : Expr} {args : List Expr}
    {em : Emission Scratch Register} (h : lowerExpr table (.call pos callee args) s = .ok em) :
    ∃ a c i, lowerExpr table callee s = .ok a ∧ lowerArguments table args a.state = .ok c ∧
      (c.state.pool.free a.value).free? = some i ∧
      em = ⟨.general i,
        (s.pool.live.map Instruction.push).map .instruction ++ (a.lines ++ (c.lines ++
          ((callCode s.pool.live a.value args.length).map .instruction ++
            [.instruction (.mov (Register.general i) Register.rv)]))),
        { c.state with pool := (c.state.pool.free a.value).set i true }⟩ := by
  rw [lowerExpr] at h
  simp only [bind_eq_ok_iff, emitCode_eq_ok_iff, emit_eq_ok_iff, release_eq_ok_iff] at h
  obtain ⟨_, _, hlive, ⟨_, _, rfl, ⟨a, _, ha, ⟨c, _, hc, ⟨_, _, rfl, ⟨_, _, rfl, ⟨_, _, rfl,
    ⟨_, l, rfl, hl, rfl⟩, rfl⟩, rfl⟩, rfl⟩, rfl⟩, rfl⟩, rfl⟩, rfl⟩ := h
  cases hlive
  obtain ⟨i, hi, rfl⟩ := load_ok hl
  exact ⟨a, c, i, ha, hc, hi, by simp [callCode]⟩

/-! ### Registers -/

theorem load_takes {pos : Position} {source : Operand} {em : Emission Scratch Register}
    (h : load pos source s = .ok em) : s.pool.Takes em.value em.state.pool := by
  obtain ⟨i, hi, rfl⟩ := load_ok h
  exact RegisterPool.takes_of_free? hi

theorem loadName_takes {pos : Position} {x : String} {em : Emission Scratch Register}
    (h : loadName table pos x s = .ok em) : s.pool.Takes em.value em.state.pool := by
  obtain ⟨symbol, i, -, hi, rfl⟩ := loadName_ok h
  exact RegisterPool.takes_of_free? hi

/-- A unary operator gives back one of the two registers and leaves the result in the other. -/
theorem unaryResult_takes {p q : RegisterPool} {a : Register} {i : Fin generalCount}
    (h : p.Takes a q) (hi : q.free? = some i) (op : UnaryOp) :
    p.Takes (unaryResult a (.general i) op).1
      ((q.set i true).free (unaryResult a (.general i) op).2) := by
  have hq := RegisterPool.takes_of_free? hi
  cases op with
  | not => simpa only [unaryResult, hq.free_eq] using h
  | neg => exact h.free_first hq
  | deref => exact h.free_first hq

mutual

/-- The result of an expression is in a register that was free, and the pool is the old one with
that register. -/
theorem lowerExpr_takes : ∀ (e : Expr) {s : Scratch} {em : Emission Scratch Register},
    lowerExpr table e s = .ok em → s.pool.Takes em.value em.state.pool
  | .number .., _, _, h => load_takes (by rwa [lowerExpr] at h)
  | .character .., _, _, h => load_takes (by rwa [lowerExpr] at h)
  | .bool .., _, _, h => load_takes (by rwa [lowerExpr] at h)
  | .text .., _, _, h => by
    obtain ⟨i, hi, rfl⟩ := lowerExpr_text_ok h
    exact RegisterPool.takes_of_free? hi
  | .name .., _, _, h => loadName_takes (by rwa [lowerExpr] at h)
  | .assign _ target value, _, _, h => by
    obtain ⟨place, hp⟩ := lowerExpr_assign_ok h
    cases place with
    | named at_ x =>
      obtain ⟨_, _, a, -, -, ha, rfl⟩ := lowerExpr_assign_named_ok hp h
      have hvalue := lowerExpr_takes value ha
      exact hvalue
    | pointee at_ x =>
      obtain ⟨a, b, ha, hb, rfl⟩ := lowerExpr_assign_pointee_ok hp h
      exact (loadName_takes ha).free_first (lowerExpr_takes value hb)
  | .logical _ op operands, s, _, h => by
    obtain ⟨i, c, hi, hc, rfl⟩ := lowerExpr_logical_ok h
    have hpool : c.state.pool = s.pool.set i true := lowerOperands_pool op operands hc
    rw [hpool]
    exact RegisterPool.takes_of_free? hi
  | .binary _ op left right, _, _, h => by
    obtain ⟨a, b, ha, hb, rfl⟩ := lowerExpr_binary_ok h
    have hl := lowerExpr_takes left ha
    simpa only [(lowerExpr_takes right hb).free_eq] using hl
  | .unary _ op operand, _, _, h => by
    obtain ⟨a, i, ha, hi, rfl⟩ := lowerExpr_unary_ok h
    exact unaryResult_takes (lowerExpr_takes operand ha) hi op
  | .call _ callee args, s, _, h => by
    obtain ⟨a, c, i, ha, hc, hi, rfl⟩ := lowerExpr_call_ok h
    have hpool : c.state.pool.free a.value = s.pool := by
      rw [lowerArguments_pool args hc, (lowerExpr_takes callee ha).free_eq]
    rw [hpool] at hi ⊢
    exact RegisterPool.takes_of_free? hi

theorem lowerOperands_pool : ∀ (op : LogicalOp) (es : List Expr) {done : String} {s : Scratch}
    {em : Emission Scratch Unit}, lowerOperands table done op es s = .ok em →
    em.state.pool = s.pool
  | _, [], _, _, _, h => by rw [lowerOperands_nil_ok h]
  | op, e :: es, _, _, _, h => by
    obtain ⟨a, c, ha, hc, rfl⟩ := lowerOperands_cons_ok h
    have hrest := lowerOperands_pool op es hc
    rwa [(lowerExpr_takes e ha).free_eq] at hrest

theorem lowerArguments_pool : ∀ (es : List Expr) {s : Scratch} {em : Emission Scratch Unit},
    lowerArguments table es s = .ok em → em.state.pool = s.pool
  | [], _, _, h => by rw [lowerArguments_nil_ok h]
  | e :: es, _, _, h => by
    obtain ⟨a, c, ha, hc, rfl⟩ := lowerArguments_cons_ok h
    have hrest := lowerArguments_pool es hc
    rwa [(lowerExpr_takes e ha).free_eq] at hrest

end

/-! ### String literals -/

mutual

/-- The texts kept are the literals of the expression. -/
theorem lowerExpr_strings : ∀ (e : Expr) {s : Scratch} {em : Emission Scratch Register},
    lowerExpr table e s = .ok em → em.state.strings = s.strings ++ e.literals
  | .number .., _, _, h => by
    obtain ⟨i, -, rfl⟩ := load_ok (by rwa [lowerExpr] at h)
    simp [Expr.literals]
  | .character .., _, _, h => by
    obtain ⟨i, -, rfl⟩ := load_ok (by rwa [lowerExpr] at h)
    simp [Expr.literals]
  | .bool .., _, _, h => by
    obtain ⟨i, -, rfl⟩ := load_ok (by rwa [lowerExpr] at h)
    simp [Expr.literals]
  | .text .., _, _, h => by
    obtain ⟨i, -, rfl⟩ := lowerExpr_text_ok h
    simp [Expr.literals]
  | .name .., _, _, h => by
    obtain ⟨_, i, -, -, rfl⟩ := loadName_ok (by rwa [lowerExpr] at h)
    simp [Expr.literals]
  | .assign _ target value, _, _, h => by
    obtain ⟨place, hp⟩ := lowerExpr_assign_ok h
    cases place with
    | named at_ x =>
      obtain ⟨_, _, a, -, -, ha, rfl⟩ := lowerExpr_assign_named_ok hp h
      simp [Expr.literals, Expr.literals_of_place? hp, lowerExpr_strings value ha]
    | pointee at_ x =>
      obtain ⟨a, b, ha, hb, rfl⟩ := lowerExpr_assign_pointee_ok hp h
      obtain ⟨_, i, -, -, rfl⟩ := loadName_ok ha
      simp [Expr.literals, Expr.literals_of_place? hp, lowerExpr_strings value hb]
  | .logical _ op operands, s, _, h => by
    obtain ⟨i, c, -, hc, rfl⟩ := lowerExpr_logical_ok h
    simpa [Expr.literals] using lowerOperands_strings op operands hc
  | .binary _ op left right, _, _, h => by
    obtain ⟨a, b, ha, hb, rfl⟩ := lowerExpr_binary_ok h
    simp [Expr.literals, lowerExpr_strings left ha, lowerExpr_strings right hb]
  | .unary _ op operand, _, _, h => by
    obtain ⟨a, i, ha, -, rfl⟩ := lowerExpr_unary_ok h
    simp [Expr.literals, lowerExpr_strings operand ha]
  | .call _ callee args, s, _, h => by
    obtain ⟨a, c, i, ha, hc, -, rfl⟩ := lowerExpr_call_ok h
    simp [Expr.literals, lowerExpr_strings callee ha, lowerArguments_strings args hc]

theorem lowerOperands_strings : ∀ (op : LogicalOp) (es : List Expr) {done : String} {s : Scratch}
    {em : Emission Scratch Unit}, lowerOperands table done op es s = .ok em →
    em.state.strings = s.strings ++ Expr.literalsOfAll es
  | _, [], _, _, _, h => by
    rw [lowerOperands_nil_ok h]
    simp [Expr.literalsOfAll]
  | op, e :: es, _, _, _, h => by
    obtain ⟨a, c, ha, hc, rfl⟩ := lowerOperands_cons_ok h
    simpa [Expr.literalsOfAll, lowerExpr_strings e ha] using lowerOperands_strings op es hc

theorem lowerArguments_strings : ∀ (es : List Expr) {s : Scratch} {em : Emission Scratch Unit},
    lowerArguments table es s = .ok em → em.state.strings = s.strings ++ Expr.literalsOfAll es
  | [], _, _, h => by
    rw [lowerArguments_nil_ok h]
    simp [Expr.literalsOfAll]
  | e :: es, _, _, h => by
    obtain ⟨a, c, ha, hc, rfl⟩ := lowerArguments_cons_ok h
    simpa [Expr.literalsOfAll, lowerExpr_strings e ha] using lowerArguments_strings es hc

end

end Lowering

end WordC
