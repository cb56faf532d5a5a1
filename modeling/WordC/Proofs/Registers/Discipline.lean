import WordC.Proofs.Machine.Run
import WordC.Proofs.Registers.Sound

/-!
# Which registers are written

The lines of an expression write registers that were free before it. The one exception is a call:
it pops the registers in use behind the called function, and each of these has been pushed at the
start of the lines of the same call, the last one pushed being the first one popped (`Restores`).

* `Machine.execute_congr` and `Machine.registers_execute`: what it means for the machine that
  an instruction reads and writes registers;
* `lowerExpr_path_keeps`: a run through an expression without calls leaves the registers in use
  alone;
* `lowering_keeps_discipline`: what holds of the registers of every expression and of every program.
-/

namespace WordC

/-! ### Reading and writing on the machine -/

section Execute

variable {μ : Type} {world : World μ} {k k' l : Machine μ} {i : Instruction} {r : Register}

namespace Machine

/-- A register that an instruction does not write keeps its word. -/
theorem registers_execute (h : k.execute world i = some k') (hr : r ∉ i.writes) :
    k'.registers r = k.registers r := by
  cases i with
  | mov target source =>
    cases target with
    | register r' =>
      cases h
      exact k.registers_set_of_ne (List.ne_of_not_mem_cons hr) _
    | memory address =>
      cases h
      rfl
    | immediate _ | label _ => cases h
  | pop target =>
    cases h
    simp only [Instruction.writes, List.mem_cons, not_or] at hr
    rw [registers_set_of_ne _ hr.2.1, registers_set_of_ne _ hr.1]
  | push _ | add _ _ | sub _ _ | mul _ _ | div _ _ | flg _ _ =>
    cases h
    exact k.registers_set_of_ne (List.ne_of_not_mem_cons hr) _
  | cmp _ _ =>
    cases h
    rfl
  | call _ | jmp _ | jnz _ _ | ret => cases h

theorem locate_congr {address : Address}
    (h : ∀ r ∈ address.reads, k.registers r = l.registers r) :
    k.locate world address = l.locate world address := by
  cases address with
  | frame offset => rw [locate, locate, h .sf (by simp [Address.reads])]
  | register r => exact h r (by simp [Address.reads])
  | label name => rfl

theorem value_congr {operand : Operand} (hmemory : k.memory = l.memory)
    (h : ∀ r ∈ operand.reads, k.registers r = l.registers r) :
    k.value world operand = l.value world operand := by
  cases operand with
  | register r => exact h r (by simp [Operand.reads])
  | memory address => rw [value, value, hmemory, locate_congr h]
  | immediate _ | label _ => rfl

/-- Nothing else matters to an instruction than the registers that it reads, the memory and the
last comparison: where these are the same, it does the same. -/
theorem execute_congr (hreads : ∀ r ∈ i.reads, k.registers r = l.registers r)
    (hcompared : k.compared = l.compared) (hmemory : k.memory = l.memory)
    (h : k.execute world i = some k') :
    ∃ l', l.execute world i = some l' ∧ k'.compared = l'.compared ∧ k'.memory = l'.memory ∧
      ∀ r ∈ i.writes, k'.registers r = l'.registers r := by
  cases i with
  | mov target source =>
    rw [Instruction.reads, List.forall_mem_append] at hreads
    have hvalue : k.value world source = l.value world source := value_congr hmemory hreads.2
    cases target with
    | register r =>
      cases h
      exact ⟨_, rfl, hcompared, hmemory,
        by simp [Instruction.writes, Operand.targetWrites, hvalue]⟩
    | memory address =>
      cases h
      refine ⟨_, rfl, hcompared, ?_, by simp [Instruction.writes, Operand.targetWrites]⟩
      rw [hmemory, locate_congr hreads.1, hvalue]
    | immediate _ | label _ => cases h
  | add target source | sub target source =>
    cases h
    rw [Instruction.reads, List.forall_mem_cons] at hreads
    refine ⟨_, rfl, hcompared, hmemory, ?_⟩
    simp [Instruction.writes, hreads.1, value_congr hmemory hreads.2]
  | push _ | pop _ | mul _ _ | div _ _ | cmp _ _ | flg _ _ =>
    cases h
    simp only [Instruction.reads, List.forall_mem_cons] at hreads
    refine ⟨_, rfl, ?_⟩
    simp [set, flag, Function.update_apply, Instruction.writes, hreads, hcompared, hmemory]
  | call _ | jmp _ | jnz _ _ | ret => cases h

end Machine

/-- A register that is not written on a line keeps its word in the step there. -/
theorem registers_step {lines : List Line} {c d : Config μ} (h : step world lines c = some d)
    (hr : ∀ i, lines[c.line]? = some (.instruction i) → r ∉ i.writes) :
    d.machine.registers r = c.machine.registers r := by
  unfold step at h
  split at h
  · cases h
    rfl
  · obtain ⟨_, -, rfl⟩ := Option.map_eq_some_iff.1 h
    rfl
  · split at h
    · cases h
      rfl
    · obtain ⟨_, -, rfl⟩ := Option.map_eq_some_iff.1 h
      rfl
  · rename_i i _ _ hline
    obtain ⟨k, hk, rfl⟩ := Option.map_eq_some_iff.1 h
    exact Machine.registers_execute hk (hr i hline)
  · cases h

/-- A register that no line of a stretch writes keeps its word on every path there. -/
theorem Path.registers_eq {lines : List Line} {lo hi n : Nat} {c d : Config μ}
    (h : Path world lines lo hi n c d)
    (hr : ∀ j i, lo ≤ j → j < hi → lines[j]? = some (.instruction i) → r ∉ i.writes) :
    d.machine.registers r = c.machine.registers r := by
  induction h with
  | refl c => rfl
  | step hlo hhi hs _ ih =>
    rw [ih, registers_step hs fun i hi => hr _ i hlo hhi hi]

end Execute

end WordC

namespace WordC.Lowering
open Emitter

/-- At line `n` a call pops the register that it pushed in front of the called function. The lines
of the call end with the pops and the move of its result, so the register that is pushed at place
`k` is popped at that place from the end. -/
def Restores (table : SymbolTable) (lines : List Line) (calls : List Expr) (n : Nat)
    (r : Register) : Prop :=
  ∃ call ∈ calls, ∃ s em start k, lowerExpr table call s = .ok em ∧
    CodeAt lines start em.lines ∧ s.pool.live[k]? = some r ∧
    lines[start + k]? = some (.instruction (.push r)) ∧
    lines[n]? = some (.instruction (.pop r)) ∧ start + k < n ∧
    n + 2 + k = start + em.lines.length

/-- Where a stretch of lines that begins at `pos` writes a register in use, it restores it. -/
def Spares (restores : Nat → Register → Prop) (p : RegisterPool) (pos : Nat)
    (code : List Line) : Prop :=
  ∀ n i r, code[n]? = some (.instruction i) → r ∈ i.writes → r ∈ p.live → restores (pos + n) r

namespace Spares

variable {restores : Nat → Register → Prop} {p : RegisterPool} {pos : Nat}
  {code code' : List Line}

theorem nil : Spares restores p pos [] := fun _ _ _ h => nomatch h

theorem append (h : Spares restores p pos code)
    (h' : Spares restores p (pos + code.length) code') :
    Spares restores p pos (code ++ code') := by
  intro n i r hline hwrites hlive
  by_cases hn : n < code.length
  · rw [List.getElem?_append_left hn] at hline
    exact h n i r hline hwrites hlive
  · rw [List.getElem?_append_right (by omega)] at hline
    have hrest := h' (n - code.length) i r hline hwrites hlive
    rwa [show pos + code.length + (n - code.length) = pos + n by omega] at hrest

/-- Lines that write no register in use. -/
theorem of_writes (h : ∀ i, .instruction i ∈ code → ∀ r ∈ i.writes, r ∉ p.live) :
    Spares restores p pos code := by
  intro n i r hline hwrites hlive
  exact absurd hlive (h i (List.mem_of_getElem? hline) r hwrites)

theorem cons {i : Instruction} (hi : ∀ r ∈ i.writes, r ∉ p.live)
    (h : Spares restores p (pos + 1) code) :
    Spares restores p pos (.instruction i :: code) := by
  have hone : Spares restores p pos [.instruction i] :=
    .of_writes fun i' hi' => by
      obtain ⟨⟩ := List.mem_singleton.1 hi'
      exact hi
  exact hone.append h

end Spares

/-! ### What the code of a node writes -/

theorem sp_not_mem_live (p : RegisterPool) : Register.sp ∉ p.live := by
  simp [RegisterPool.mem_live]

theorem writes_nameCode (r : Register) (x : String) (symbol : Symbol) :
    ∀ i ∈ nameCode r x symbol, ∀ r' ∈ i.writes, r' = r := by
  cases symbol with
  | stack offset ty constant =>
    rw [nameCode, frameAddressCode]
    split
    · split <;> simp [Instruction.writes, Operand.targetWrites]
    · simp [Instruction.writes, Operand.targetWrites]
  | static ty constant =>
    rw [nameCode]
    split <;> simp [Instruction.writes, Operand.targetWrites]
  | function params defined => simp [nameCode, Instruction.writes, Operand.targetWrites]

theorem writes_unaryCode (source r : Register) (op : UnaryOp) :
    ∀ i ∈ unaryCode source r op, ∀ r' ∈ i.writes, r' = source ∨ r' = r := by
  cases op <;> simp [unaryCode, negateCode, Instruction.writes, Operand.targetWrites]

theorem writes_binaryCode (left right : Register) (op : BinaryOp) :
    ∀ i ∈ binaryCode left right op, ∀ r' ∈ i.writes, r' = left ∨ r' = right := by
  cases op <;>
    simp [binaryCode, compareCode, negateCode, Instruction.writes, Operand.targetWrites]

theorem writes_dropArguments (count : Nat) :
    ∀ i ∈ dropArguments count, ∀ r ∈ i.writes, r = .sp := by
  unfold dropArguments
  split <;> simp [Instruction.writes]

theorem writes_operandTest (r : Register) (done next : String) (op : LogicalOp) :
    ∀ i, .instruction i ∈ operandTest r done next op → i.writes = [] := by
  cases op <;> simp [operandTest, Instruction.writes]

/-! ### Expressions -/

section Expressions

variable {table : SymbolTable} {lines : List Line} {calls : List Expr} {p : RegisterPool}
  {restores : Nat → Register → Prop}

/-- A single instruction that writes a register that was free. -/
theorem spares_target {q q' : RegisterPool} {r : Register} {pos : Nat} {i : Instruction}
    (hp : p.live ⊆ q.live) (hr : q.Takes r q') (hi : i.writes = [r]) :
    Spares restores p pos [.instruction i] := by
  refine .of_writes fun i' hi' r' hr' => ?_
  obtain ⟨⟩ := List.mem_singleton.1 hi'
  rw [hi, List.mem_singleton] at hr'
  rw [hr']
  exact fun hmem => hr.not_mem_live (hp hmem)

theorem loadName_spares {at_ : Position} {x : String} {s : Scratch}
    {em : Emission Scratch Register} {pos : Nat} (hp : p.live ⊆ s.pool.live)
    (h : loadName table at_ x s = .ok em) : Spares restores p pos em.lines := by
  obtain ⟨symbol, i, -, hi, rfl⟩ := loadName_ok h
  refine .of_writes fun i' hi' r' hr' => ?_
  obtain ⟨i', hi', ⟨⟩⟩ := List.mem_map.1 hi'
  rw [writes_nameCode _ _ _ _ hi' r' hr']
  exact fun hmem => (RegisterPool.takes_of_free? hi).not_mem_live (hp hmem)

/-- The pops at the end of a call. -/
theorem spares_pops {saved : List Register} {pos : Nat}
    (h : ∀ k r, saved[k]? = some r → restores (pos + (saved.length - 1 - k)) r) :
    Spares restores p pos ((saved.reverse.map Instruction.pop).map .instruction) := by
  intro n i r hline hwrites hlive
  simp only [List.getElem?_map, Option.map_eq_some_iff] at hline
  obtain ⟨_, ⟨r', hr', rfl⟩, ⟨⟩⟩ := hline
  have hn : n < saved.length := by
    obtain ⟨hn, -⟩ := List.getElem?_eq_some_iff.1 hr'
    rwa [List.length_reverse] at hn
  rw [List.getElem?_reverse hn] at hr'
  rcases List.mem_pair.1 hwrites with rfl | rfl
  · exact absurd hlive (sp_not_mem_live p)
  · have hrestores := h _ _ hr'
    rwa [show saved.length - 1 - (saved.length - 1 - n) = n by omega] at hrestores

/-- A call pops what it has pushed, in the opposite order. -/
theorem lowerExpr_call_restores {at_ : Position} {callee : Expr} {args : List Expr} {s : Scratch}
    {em : Emission Scratch Register} {pos k : Nat} {r : Register}
    (hcall : .call at_ callee args ∈ calls)
    (h : lowerExpr table (.call at_ callee args) s = .ok em) (hcode : CodeAt lines pos em.lines)
    (hk : s.pool.live[k]? = some r) :
    Restores table lines calls (pos + (em.lines.length - 2 - k)) r := by
  obtain ⟨hlt, -⟩ := List.getElem?_eq_some_iff.1 hk
  -- only the two ends of the lines matter: the pushes in front, the pops and the result behind
  have hlines : ∃ middle last, em.lines = (s.pool.live.map Instruction.push).map .instruction ++
      (middle ++ ((s.pool.live.reverse.map Instruction.pop).map .instruction ++ [last])) := by
    obtain ⟨a, c, i, -, -, -, rfl⟩ := lowerExpr_call_ok h
    exact ⟨a.lines ++ (c.lines ++
      (.instruction (.call a.value) :: (dropArguments args.length).map .instruction)),
      .instruction (.mov (Register.general i) Register.rv), by simp [callCode]⟩
  obtain ⟨middle, last, hlines⟩ := hlines
  have hlength : em.lines.length = 2 * s.pool.live.length + middle.length + 1 := by
    simp [hlines]
    omega
  have hpush : em.lines[k]? = some (.instruction (.push r)) := by
    rw [hlines, List.getElem?_append_left (by simpa using hlt)]
    simp [hk]
  have hpop : em.lines[em.lines.length - 2 - k]? = some (.instruction (.pop r)) := by
    rw [hlength, hlines, List.getElem?_append_right (by simp; omega),
      List.getElem?_append_right (by simp; omega), List.getElem?_append_left (by simp; omega)]
    simp only [List.length_map, List.getElem?_map]
    rw [List.getElem?_reverse (by omega), show s.pool.live.length - 1 -
      (2 * s.pool.live.length + middle.length + 1 - 2 - k - s.pool.live.length - middle.length) = k
      by omega, hk]
    rfl
  refine ⟨_, hcall, s, em, pos, k, h, hcode, hk, hcode.getElem? hpush, hcode.getElem? hpop, ?_, ?_⟩
  · omega
  · omega

mutual

/-- Wherever the lines of an expression write a register that was in use, a call restores it. -/
theorem lowerExpr_spares : ∀ (e : Expr) {s : Scratch} {em : Emission Scratch Register} {pos : Nat},
    e.calls ⊆ calls → lowerExpr table e s = .ok em → CodeAt lines pos em.lines →
    p.live ⊆ s.pool.live → Spares (Restores table lines calls) p pos em.lines
  | .number .., _, _, _, _, h, _, hp | .character .., _, _, _, _, h, _, hp
  | .bool .., _, _, _, _, h, _, hp => by
    rw [lowerExpr] at h
    obtain ⟨i, hi, rfl⟩ := load_ok h
    exact spares_target hp (RegisterPool.takes_of_free? hi) rfl
  | .text .., _, _, _, _, h, _, hp => by
    obtain ⟨i, hi, rfl⟩ := lowerExpr_text_ok h
    exact spares_target hp (RegisterPool.takes_of_free? hi) rfl
  | .name .., _, _, _, _, h, _, hp => by
    rw [lowerExpr] at h
    exact loadName_spares hp h
  | .assign _ target value, s, _, _, hcalls, h, hcode, hp => by
    -- the target is a name or what one points to, so the calls are those of the value
    obtain ⟨place, hplace⟩ := lowerExpr_assign_ok h
    rw [Expr.calls, Expr.calls_of_place? hplace, List.nil_append] at hcalls
    have hstore {address : Address} {r : Register} {pos : Nat} :
        Spares (Restores table lines calls) p pos [.instruction (.mov address r)] :=
      .of_writes (by simp [Instruction.writes, Operand.targetWrites])
    cases place with
    | named at_ x =>
      obtain ⟨symbol, address, a, -, -, ha, rfl⟩ := lowerExpr_assign_named_ok hplace h
      exact (lowerExpr_spares value hcalls ha hcode.left hp).append hstore
    | pointee at_ x =>
      obtain ⟨a, b, ha, hb, rfl⟩ := lowerExpr_assign_pointee_ok hplace h
      have hp' : p.live ⊆ a.state.pool.live :=
        List.Subset.trans hp (loadName_takes ha).live_subset
      refine (loadName_spares hp ha).append (.append ?_ hstore)
      exact lowerExpr_spares value hcalls hb hcode.right.left hp'
  | .logical _ op operands, s, _, _, hcalls, h, hcode, hp => by
    obtain ⟨i, c, hi, hc, rfl⟩ := lowerExpr_logical_ok h
    have hr := RegisterPool.takes_of_free? hi
    rw [Expr.calls] at hcalls
    have hp' := List.Subset.trans hp hr.live_subset
    have hend (pos : Nat) : Spares (Restores table lines calls) p pos
        ([.instruction (.mov (Register.general i) (.immediate (op.outcome false)))] ++
          [.label (flowLabel s.labels)]) :=
      (spares_target hp hr rfl).append (.of_writes (by simp))
    refine (spares_target hp hr rfl).append (.append ?_ (hend _))
    exact lowerOperands_spares op operands hcalls hc hcode.right.left hp'
  | .binary _ op left right, s, _, _, hcalls, h, hcode, hp => by
    obtain ⟨a, b, ha, hb, rfl⟩ := lowerExpr_binary_ok h
    rw [Expr.calls, List.append_subset] at hcalls
    have hleft := lowerExpr_takes left ha
    have hright := lowerExpr_takes right hb
    have hp' : p.live ⊆ a.state.pool.live := List.Subset.trans hp hleft.live_subset
    refine (lowerExpr_spares left hcalls.1 ha hcode.left hp).append (.append ?_ ?_)
    · exact lowerExpr_spares right hcalls.2 hb hcode.right.left hp'
    · -- the operation works on the two registers that were taken for its operands
      refine .of_writes fun i hi r hr => ?_
      obtain ⟨i, hi, ⟨⟩⟩ := List.mem_map.1 hi
      rcases writes_binaryCode _ _ op i hi r hr with rfl | rfl
      · exact fun hmem => hleft.not_mem_live (hp hmem)
      · exact fun hmem => hright.not_mem_live (hp' hmem)
  | .unary _ op operand, s, _, _, hcalls, h, hcode, hp => by
    obtain ⟨a, j, ha, hj, rfl⟩ := lowerExpr_unary_ok h
    rw [Expr.calls] at hcalls
    have hoperand := lowerExpr_takes operand ha
    have hscratch := RegisterPool.takes_of_free? hj
    refine (lowerExpr_spares operand hcalls ha hcode.left hp).append ?_
    refine .of_writes fun i hi r hr => ?_
    obtain ⟨i, hi, ⟨⟩⟩ := List.mem_map.1 hi
    rcases writes_unaryCode _ _ op i hi r hr with rfl | rfl
    · exact fun hmem => hoperand.not_mem_live (hp hmem)
    · exact fun hmem => hscratch.not_mem_live (hoperand.live_subset (hp hmem))
  | .call at_ callee args, s, em, pos, hcalls, h, hcode, hp => by
    have hself : .call at_ callee args ∈ calls := hcalls List.mem_cons_self
    have hrestores {k : Nat} {r : Register} (hk : s.pool.live[k]? = some r) :=
      lowerExpr_call_restores hself h hcode hk
    obtain ⟨a, c, i, ha, hc, hi, rfl⟩ := lowerExpr_call_ok h
    have htarget := lowerExpr_takes callee ha
    have hp' : p.live ⊆ a.state.pool.live := List.Subset.trans hp htarget.live_subset
    rw [lowerArguments_pool args hc, htarget.free_eq] at hi
    rw [Expr.calls, List.cons_subset, List.append_subset] at hcalls
    refine .append ?_ (.append ?_ (.append ?_ (.append ?_ ?_)))
    · exact .of_writes (by simp [Instruction.writes, sp_not_mem_live])
    · exact lowerExpr_spares callee hcalls.2.1 ha hcode.right.left hp
    · exact lowerArguments_spares args hcalls.2.2 hc hcode.right.right.left hp'
    · rw [callCode, List.map_cons, List.map_append]
      refine .cons (by simp [Instruction.writes, sp_not_mem_live]) (.append (.of_writes ?_) ?_)
      · intro i hi r hr
        obtain ⟨i, hi, ⟨⟩⟩ := List.mem_map.1 hi
        rw [writes_dropArguments _ i hi r hr]
        exact sp_not_mem_live p
      · refine spares_pops fun k r hk => ?_
        obtain ⟨hlt, -⟩ := List.getElem?_eq_some_iff.1 hk
        convert hrestores hk using 1
        simp [callCode]
        omega
    · exact spares_target hp (RegisterPool.takes_of_free? hi) rfl

theorem lowerOperands_spares {done : String} : ∀ (op : LogicalOp) (es : List Expr) {s : Scratch}
    {em : Emission Scratch Unit} {pos : Nat}, Expr.callsOfAll es ⊆ calls →
    lowerOperands table done op es s = .ok em → CodeAt lines pos em.lines →
    p.live ⊆ s.pool.live → Spares (Restores table lines calls) p pos em.lines
  | _, [], _, _, _, _, h, _, _ => by
    rw [lowerOperands_nil_ok h]
    exact .nil
  | op, e :: es, s, _, _, hcalls, h, hcode, hp => by
    obtain ⟨a, c, ha, hc, rfl⟩ := lowerOperands_cons_ok h
    rw [Expr.callsOfAll, List.append_subset] at hcalls
    have hpool : p.live ⊆ (a.state.pool.free a.value).live := by
      rw [(lowerExpr_takes e ha).free_eq]
      exact hp
    refine (lowerExpr_spares e hcalls.1 ha hcode.left hp).append (.append (.of_writes ?_) ?_)
    · intro i hi r hr
      rw [writes_operandTest _ _ _ op i hi] at hr
      cases hr
    · exact lowerOperands_spares op es hcalls.2 hc hcode.right.right hpool

theorem lowerArguments_spares : ∀ (es : List Expr) {s : Scratch} {em : Emission Scratch Unit}
    {pos : Nat}, Expr.callsOfAll es ⊆ calls → lowerArguments table es s = .ok em →
    CodeAt lines pos em.lines → p.live ⊆ s.pool.live →
    Spares (Restores table lines calls) p pos em.lines
  | [], _, _, _, _, h, _, _ => by
    rw [lowerArguments_nil_ok h]
    exact .nil
  | e :: es, s, _, _, hcalls, h, hcode, hp => by
    obtain ⟨a, c, ha, hc, rfl⟩ := lowerArguments_cons_ok h
    rw [Expr.callsOfAll, List.append_subset] at hcalls
    have hpool : p.live ⊆ (a.state.pool.free a.value).live := by
      rw [(lowerExpr_takes e ha).free_eq]
      exact hp
    refine (lowerExpr_spares e hcalls.1 ha hcode.left hp).append (.append (.of_writes ?_) ?_)
    · simp [Instruction.writes, sp_not_mem_live]
    · exact lowerArguments_spares es hcalls.2 hc hcode.right.right hpool

end

/-- The lines of an expression without calls do not touch a register in use, however far they are
run. -/
theorem lowerExpr_path_keeps {e : Expr} {s : Scratch} {em : Emission Scratch Register} {μ : Type}
    {world : World μ} {pos n : Nat} {c d : Config μ} {r : Register} (he : e.calls = [])
    (h : lowerExpr table e s = .ok em) (hcode : CodeAt lines pos em.lines)
    (hpath : Path world lines pos (pos + em.lines.length) n c d) (hr : r ∈ s.pool.live) :
    d.machine.registers r = c.machine.registers r := by
  have hspares : Spares (Restores table lines []) s.pool pos em.lines :=
    lowerExpr_spares e (List.subset_nil.2 he) h hcode (List.Subset.refl _)
  refine hpath.registers_eq fun j i hlo hhi hline hwrites => ?_
  have hemitted : em.lines[j - pos]? = some (.instruction i) := by
    obtain ⟨line, hj⟩ : ∃ line, em.lines[j - pos]? = some line :=
      ⟨_, List.getElem?_eq_getElem (by omega)⟩
    have hlisted := hcode.getElem? hj
    rw [show pos + (j - pos) = j by omega, hline] at hlisted
    rw [hj, ← hlisted]
  -- only a call could restore the register, and there is none
  obtain ⟨call, hcall, -⟩ := hspares _ i r hemitted hwrites hr
  cases hcall

end Expressions

/-- The register discipline of code generation.

An expression that can be lowered takes one general register that was free, and nothing else
changes in the pool. Its instructions read special registers and registers in use, and where one
writes a register that was in use before, it is a pop in a call that has pushed this register.

From the empty pool, no register is in use where a statement begins or ends, at any depth, whether
or not lowering succeeds in the end, and again instructions read special registers and registers in
use only. -/
theorem lowering_keeps_discipline :
    (∀ table e s, lowerExpr table e s = (recordExpr table e s).emission ∧
      (∀ m ∈ (recordExpr table e s).history, m.IsSound) ∧
      ∀ em, lowerExpr table e s = .ok em → s.pool.Takes em.value em.state.pool ∧
        ∀ n i r, em.lines[n]? = some (.instruction i) → r ∈ i.writes → r ∈ s.pool.live →
          Restores table em.lines e.calls n r) ∧
    ∀ items s, s.pool = .empty → lowerItems items s = (recordItems items s).emission ∧
      (∀ m ∈ (recordItems items s).history, m.IsSound) ∧
      ∀ em, lowerItems items s = .ok em → em.state.pool = .empty ∧
        ∀ stmt ∈ Stmt.partsOfAll items,
          .enter stmt ∈ (recordItems items s).history.map Moment.event ∧
          .leave stmt ∈ (recordItems items s).history.map Moment.event := by
  refine ⟨fun table e s => ?_, fun items s hs => ?_⟩
  · refine ⟨run_eq_emission _ _ s, (lowerExpr_sound e s rfl).1, fun em h => ?_⟩
    refine ⟨lowerExpr_takes e h, fun n i r hline hwrites hlive => ?_⟩
    have hcode : CodeAt em.lines 0 em.lines := ⟨[], [], by simp, rfl⟩
    have hrestores :=
      lowerExpr_spares e (List.Subset.refl _) h hcode (List.Subset.refl _) n i r hline hwrites hlive
    rwa [Nat.zero_add] at hrestores
  · obtain ⟨hhistory, hpool⟩ := lowerItems_sound items s hs
    refine ⟨run_eq_emission _ _ s, hhistory, fun em h => ?_⟩
    obtain ⟨out, hout, rfl⟩ := exists_outcome h Session.pool
    exact ⟨hpool _ _ hout, lowerItems_covers items Session.pool s _ hout⟩

/-- In the lines of `f(g())` with `r0` in use, both calls pop it, each one what it has pushed. In
a function with `if (1) 2;`, the inner statement begins and ends. -/
theorem lowering_keeps_discipline_nested :
    let table : SymbolTable := ⟨[("f", .function 1 true), ("g", .function 0 true)], []⟩
    let call : Expr := .call default (.name default "f") [.call default (.name default "g") []]
    let em : Emission Scratch Register := ⟨.general 1,
      [.instruction (.push (.general 0)),
       .instruction (.mov (Register.general 1) (.label "f")),
       .instruction (.push (.general 0)),
       .instruction (.push (.general 1)),
       .instruction (.mov (Register.general 2) (.label "g")),
       .instruction (.call (.general 2)),
       .instruction (.pop (.general 1)),
       .instruction (.pop (.general 0)),
       .instruction (.mov (Register.general 2) Register.rv),
       .instruction (.push (.general 2)),
       .instruction (.call (.general 1)),
       .instruction (.add .sp (.immediate 2)),
       .instruction (.pop (.general 0)),
       .instruction (.mov (Register.general 1) Register.rv)],
      ⟨(RegisterPool.empty.set 0 true).set 1 true, 0, []⟩⟩
    let inner : Stmt := .expr default (.number default 2)
    let items : List Stmt := [.function default ⟨"main", .int, []⟩
      (.block default [.ifThen default (.number default 1) inner])]
    lowerExpr table call ⟨RegisterPool.empty.set 0 true, 0, []⟩ = .ok em ∧
      (Restores table em.lines call.calls 7 (.general 0) ∧
        Restores table em.lines call.calls 12 (.general 0)) ∧
      (recordItems items .empty).emission.toOption.isSome ∧
      .enter inner ∈ (recordItems items .empty).history.map Moment.event ∧
      .leave inner ∈ (recordItems items .empty).history.map Moment.event := by
  intro table call em inner items
  have hlower : lowerExpr table call ⟨RegisterPool.empty.set 0 true, 0, []⟩ = .ok em := by
    decide +kernel
  have hok : (lowerItems items .empty).toOption.isSome := by
    decide +kernel
  obtain ⟨hexpr, hitems⟩ := lowering_keeps_discipline
  obtain ⟨-, hrestores⟩ := (hexpr _ _ _).2.2 em hlower
  obtain ⟨hemission, -, hcovers⟩ := hitems items .empty rfl
  obtain ⟨out, hout⟩ : ∃ out, lowerItems items .empty = .ok out := by
    cases hrun : lowerItems items .empty with
    | ok out => exact ⟨out, rfl⟩
    | error d =>
      rw [hrun] at hok
      cases hok
  refine ⟨hlower, ⟨?_, ?_⟩, hemission ▸ hok, ?_⟩
  · exact hrestores 7 _ _ rfl (by decide) (by decide)
  · exact hrestores 12 _ _ rfl (by decide) (by decide)
  · exact (hcovers out hout).2 inner (by simp [items, Stmt.partsOfAll, Stmt.parts])

end WordC.Lowering
