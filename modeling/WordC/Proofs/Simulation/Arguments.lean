import WordC.Proofs.Frame.Layout
import WordC.Proofs.Lowering.Calls
import WordC.Proofs.Machine.Pointer
import WordC.Proofs.Simulation.Calls

/-!
# Where arguments lie

A caller pushes its arguments from left to right, and a function finds its parameters at offsets
from its frame pointer. Both mean the same addresses: in the listing of any program, right behind
the first two instructions of a function, the `i`th parameter of the function is at the address that
the push of the `i`th argument wrote to (`Listing.ofProgram_arguments`).

Between two pushes lie the lines of the next argument, which may hold calls with arguments and saved
registers of their own. They run through with `sp` back where it was (`lowerExpr_moves`), so the
`i`th push writes `i + 1` words below where `sp` was in front of all of them
(`lowerArguments_written`). All distances are words of the machine and wrap around.
-/

namespace WordC

open Lowering Emitter

variable {μ : Type} {world : World μ} {lines : List Line} {table : SymbolTable} {pos : Nat}

/-! ### Distances -/

theorem argumentBytes_one : argumentBytes 1 = 2 := rfl

theorem argumentBytes_add (m n : Nat) :
    argumentBytes (m + n) = argumentBytes m + argumentBytes n := by
  simp [argumentBytes, Nat.mul_add]

/-- The offset of a parameter, as a word: the bytes of the parameters from it on, and two more. -/
theorem toUInt16_of_paramPlace {offset : Int16} {n i : Nat} (hi : i < n)
    (h : offset.toInt = paramPlace n i) : offset.toUInt16 = argumentBytes (n - i) + 2 := by
  have hplace : paramPlace n i = ((wordBytes * (n - i) + 2 : Nat) : Int) := by
    simp only [paramPlace, wordBytes]
    omega
  have hoffset : offset = Int16.ofNat (wordBytes * (n - i) + 2) := by
    rw [← Int16.ofInt_toInt offset, h, hplace, Int16.ofInt_eq_ofNat]
  rw [hoffset, Int16.toUInt16_ofNat', UInt16.ofNat_add]
  rfl

/-! ### Stretches of code -/

namespace Moves

/-- Instructions that change two registers, neither of them `sp`. -/
theorem of_changesOnly {code : List Instruction} {a b : Register}
    (hcode : CodeAt lines pos (code.map .instruction)) (ha : a ≠ .sp) (hb : b ≠ .sp)
    (h : ∀ k : Machine μ, ∃ k', k.executeAll world code = some k' ∧ ChangesOnly a b k k') :
    Moves world lines pos (code.map .instruction) 0 := by
  refine instructions hcode fun k => ?_
  obtain ⟨k', hk', hc⟩ := h k
  exact ⟨k', hk', by rw [hc.2 .sp ha.symm hb.symm, UInt16.add_zero]⟩

theorem mov {i : Fin generalCount} {source : Operand}
    (hcode : CodeAt lines pos [.instruction (.mov (Register.general i) source)]) :
    Moves world lines pos [.instruction (.mov (Register.general i) source)] 0 := by
  have hcode' : CodeAt lines pos ([.mov (Register.general i) source].map .instruction) := hcode
  exact of_changesOnly (a := .general i) (b := .general i) hcode' nofun nofun fun k =>
    ⟨_, executeAll_mov world k _ source, changesOnly_set k _ _ _⟩

/-- A store changes no register. -/
theorem store {address : Address} {r : Register}
    (hcode : CodeAt lines pos [.instruction (.mov address r)]) :
    Moves world lines pos [.instruction (.mov address r)] 0 := by
  have hcode' : CodeAt lines pos ([Instruction.mov address r].map .instruction) := hcode
  exact instructions hcode' fun k => ⟨_, rfl, (UInt16.add_zero _).symm⟩

theorem load {s : Scratch} {em : Emission Scratch Register} {at_ : Position} {source : Operand}
    (h : Lowering.load at_ source s = .ok em) (hcode : CodeAt lines pos em.lines) :
    Moves world lines pos em.lines 0 := by
  obtain ⟨i, -, rfl⟩ := load_ok h
  exact mov hcode

theorem loadName {s : Scratch} {em : Emission Scratch Register} {at_ : Position} {x : String}
    (h : Lowering.loadName table at_ x s = .ok em) (hcode : CodeAt lines pos em.lines) :
    Moves world lines pos em.lines 0 := by
  obtain ⟨symbol, i, -, -, rfl⟩ := loadName_ok h
  refine of_changesOnly (a := .general i) (b := .general i) hcode nofun nofun fun k => ?_
  obtain ⟨k', hk', -, hc⟩ := executeAll_nameCode world k (.general i) x symbol
  exact ⟨k', hk', hc⟩

/-- Registers that are pushed. -/
theorem pushes {saved : List Register}
    (hcode : CodeAt lines pos ((saved.map Instruction.push).map .instruction)) :
    Moves world lines pos ((saved.map Instruction.push).map .instruction)
      (-argumentBytes saved.length) := by
  induction saved generalizing pos with
  | nil => exact nil
  | cons r saved ih =>
    refine ((push hcode).append (ih hcode.tail)).of_eq ?_
    rw [List.length_cons, argumentBytes_add, argumentBytes_one]
    grind

/-- Registers that are popped. -/
theorem pops {saved : List Register} (hsp : ∀ r ∈ saved, r ≠ .sp)
    (hcode : CodeAt lines pos ((saved.map Instruction.pop).map .instruction)) :
    Moves world lines pos ((saved.map Instruction.pop).map .instruction)
      (argumentBytes saved.length) := by
  induction saved generalizing pos with
  | nil => exact nil
  | cons r saved ih =>
    rw [List.forall_mem_cons] at hsp
    refine ((pop hsp.1 hcode).append (ih hsp.2 hcode.tail)).of_eq ?_
    rw [List.length_cons, argumentBytes_add, argumentBytes_one, UInt16.add_comm]

/-- The arguments of a call are taken off the stack. -/
theorem dropArguments {count : Nat}
    (hcode : CodeAt lines pos ((Lowering.dropArguments count).map .instruction)) :
    Moves world lines pos ((Lowering.dropArguments count).map .instruction)
      (argumentBytes count) := by
  refine instructions hcode fun k => ?_
  by_cases hzero : count = 0
  · subst hzero
    exact ⟨k, rfl, (UInt16.add_zero _).symm⟩
  · rw [Lowering.dropArguments, if_neg hzero]
    exact ⟨_, rfl, k.registers_set_self .sp _⟩

/-- What stands behind a `call` instruction undoes what stands in front of it. -/
theorem callEnd {p : RegisterPool} {count : Nat} {i : Fin generalCount}
    (hcode : CodeAt lines pos (WordC.callEnd p.live count (.general i))) :
    Moves world lines pos (WordC.callEnd p.live count (.general i))
      (argumentBytes count + argumentBytes p.live.length) := by
  have hsp : ∀ r ∈ p.live.reverse, r ≠ .sp := by
    intro r hr
    obtain ⟨j, rfl, -⟩ := RegisterPool.mem_live.1 (List.mem_reverse.1 hr)
    nofun
  have hdrop : Moves world lines pos _ _ := dropArguments hcode.left
  refine (hdrop.append ((pops hsp hcode.right.left).append (mov hcode.right.right))).of_eq ?_
  rw [List.length_reverse, UInt16.add_zero]

end Moves

/-! ### Whole expressions -/

/-- The lines on which arguments are pushed, if they are lowered from line `pos` on: there is one
behind the lines of each argument. -/
def pushLines (table : SymbolTable) : List Expr → Scratch → Nat → List Nat
  | [], _, _ => []
  | e :: es, s, pos =>
    match lowerExpr table e s with
    | .error _ => []
    | .ok a =>
      (pos + a.lines.length) :: pushLines table es
        { a.state with pool := a.state.pool.free a.value } (pos + a.lines.length + 1)

theorem pushLines_cons {e : Expr} {es : List Expr} {s : Scratch} {a : Emission Scratch Register}
    (ha : lowerExpr table e s = .ok a) :
    pushLines table (e :: es) s pos = (pos + a.lines.length) :: pushLines table es
      { a.state with pool := a.state.pool.free a.value } (pos + a.lines.length + 1) := by
  rw [pushLines, ha]

theorem length_pushLines : ∀ {es : List Expr} {s : Scratch} {em : Emission Scratch Unit}
    {pos : Nat}, lowerArguments table es s = .ok em →
    (pushLines table es s pos).length = es.length
  | [], _, _, _, _ => rfl
  | e :: es, _, _, _, h => by
    obtain ⟨a, c, ha, hc, rfl⟩ := lowerArguments_cons_ok h
    rw [pushLines_cons ha, List.length_cons, length_pushLines hc, List.length_cons]

/-- These lines hold pushes of general registers. -/
theorem isPush_of_mem_pushLines {es : List Expr} {s : Scratch} {em : Emission Scratch Unit}
    {pos : Nat} (h : lowerArguments table es s = .ok em) (hcode : CodeAt lines pos em.lines) :
    ∀ l ∈ pushLines table es s pos, ∃ i, lines[l]? = some (.instruction (.push (.general i))) := by
  induction es generalizing s em pos with
  | nil => simp [pushLines]
  | cons e es ih =>
    obtain ⟨a, c, ha, hc, rfl⟩ := lowerArguments_cons_ok h
    obtain ⟨i, hi, -, -⟩ := lowerExpr_takes e ha
    rw [pushLines_cons ha, List.forall_mem_cons]
    refine ⟨⟨i, ?_⟩, ih hc hcode.right.right⟩
    rw [← hi]
    exact hcode.right.head

/-- The end of a logical operator, from its first or its second line on. -/
theorem reaches_logicalEnd {i : Fin generalCount} {v : Word} {done : String}
    (hcode : CodeAt lines pos
      [.instruction (.mov (Register.general i) (.immediate v)), .label done])
    (k : Machine μ) (written : Nat → Option Word) {line : Nat}
    (hline : line = pos + 1 ∨ line = pos) :
    Reaches world lines pos (pos + 2)
      (fun d => d.line = pos + 2 ∧ d.machine.registers .sp = k.registers .sp)
      ⟨⟨line, k⟩, written⟩ := by
  rcases hline with rfl | rfl
  · have hlabel : Path world lines pos (pos + 2) 1 ⟨pos + 1, k⟩ ⟨pos + 2, k⟩ :=
      .one (by simp) (by simp) (step_label hcode.tail)
    exact .of_path hlabel fun _ => ⟨rfl, rfl⟩
  · have hboth : Path world lines line (line + 2) 2 ⟨line, k⟩
        ⟨line + 2, k.set (.general i) v⟩ :=
      .step le_rfl (by simp) (step_execute hcode rfl) (.one (by simp) (by simp)
        (step_label hcode.tail))
    have hne : Register.sp ≠ .general i := nofun
    exact .of_path hboth fun _ => ⟨rfl, k.registers_set_of_ne hne v⟩

mutual

/-- The lines of an expression run through, with `sp` back where it was. -/
theorem lowerExpr_moves (hu : (labelsOf lines).Nodup) : ∀ (e : Expr) {s : Scratch}
    {em : Emission Scratch Register} {pos : Nat}, lowerExpr table e s = .ok em →
    CodeAt lines pos em.lines → Moves world lines pos em.lines 0
  | .number .., _, _, _, h, hcode => .load (by rwa [lowerExpr] at h) hcode
  | .character .., _, _, _, h, hcode => .load (by rwa [lowerExpr] at h) hcode
  | .bool .., _, _, _, h, hcode => .load (by rwa [lowerExpr] at h) hcode
  | .text .., _, _, _, h, hcode => by
    obtain ⟨i, -, rfl⟩ := lowerExpr_text_ok h
    exact .mov hcode
  | .name .., _, _, _, h, hcode => .loadName (by rwa [lowerExpr] at h) hcode
  | .assign _ target value, _, _, _, h, hcode => by
    obtain ⟨place, hp⟩ := lowerExpr_assign_ok h
    cases place with
    | named at_ x =>
      obtain ⟨symbol, address, a, -, -, ha, rfl⟩ := lowerExpr_assign_named_ok hp h
      exact (lowerExpr_moves hu value ha hcode.left).append_zero (.store hcode.right)
    | pointee at_ x =>
      obtain ⟨a, b, ha, hb, rfl⟩ := lowerExpr_assign_pointee_ok hp h
      exact (Moves.loadName ha hcode.left).append_zero
        ((lowerExpr_moves hu value hb hcode.right.left).append_zero (.store hcode.right.right))
  | .binary _ op left right, _, _, _, h, hcode => by
    obtain ⟨a, b, ha, hb, rfl⟩ := lowerExpr_binary_ok h
    have hta := lowerExpr_takes left ha
    have htb := lowerExpr_takes right hb
    refine (lowerExpr_moves hu left ha hcode.left).append_zero
      ((lowerExpr_moves hu right hb hcode.right.left).append_zero ?_)
    refine .of_changesOnly hcode.right.right hta.ne_sp htb.ne_sp fun k => ?_
    obtain ⟨k', hk', -, hc⟩ := executeAll_binaryCode world k (hta.ne htb) op
    exact ⟨k', hk', hc⟩
  | .unary _ op operand, _, _, _, h, hcode => by
    obtain ⟨a, i, ha, hi, rfl⟩ := lowerExpr_unary_ok h
    have hta := lowerExpr_takes operand ha
    have hti := RegisterPool.takes_of_free? hi
    refine (lowerExpr_moves hu operand ha hcode.left).append_zero ?_
    refine .of_changesOnly hcode.right hta.ne_sp hti.ne_sp fun k => ?_
    obtain ⟨k', hk', -, hc⟩ := executeAll_unaryCode world k (hta.ne hti) op
    exact ⟨k', hk', hc⟩
  | .logical _ op operands, s, _, pos, h, hcode => by
    obtain ⟨i, c, -, hc, rfl⟩ := lowerExpr_logical_ok h
    have hend := hcode.right.right
    refine (Moves.mov hcode.left).append_zero fun k written => ?_
    refine (lowerOperands_moves hu (lineOf_of_codeAt hu hend.tail) op operands hc hcode.right.left
      k written).trans le_rfl (by simp) ?_
    rintro ⟨⟨line, k'⟩, written'⟩ ⟨hline, hsp⟩
    refine (reaches_logicalEnd hend k' written' hline).trans (by simp) (by simp [Nat.add_assoc]) ?_
    rintro d ⟨hd, hsp'⟩
    exact .here ⟨by rw [hd]; simp [Nat.add_assoc], by rw [hsp', hsp, UInt16.add_zero]⟩
  | .call _ callee args, s, _, _, h, hcode => by
    obtain ⟨a, c, i, ha, hc, -, -, hlines⟩ := lowerExpr_call_lines h
    rw [hlines] at hcode ⊢
    have hargs : Moves world lines _ c.lines (-argumentBytes args.length) := fun k written =>
      (lowerArguments_written hu args hc hcode.left.right.right k written).mono fun d hd =>
        ⟨hd.1, by rw [hd.2.1, UInt16.sub_eq_add_neg]⟩
    have hfront : Moves world lines _ _ _ := (Moves.pushes hcode.left.left).append
      ((lowerExpr_moves hu callee ha hcode.left.right.left).append hargs)
    have hback : Moves world lines _ _ _ :=
      (Moves.call hcode.right).append (.callEnd hcode.right.tail)
    refine (hfront.append hback).of_eq ?_
    grind

/-- The operands of a logical operator run through, or leave for its end. -/
theorem lowerOperands_moves (hu : (labelsOf lines).Nodup) {done : String} {target : Nat}
    (hdone : lineOf lines done = some target) : ∀ (op : LogicalOp) (es : List Expr) {s : Scratch}
    {em : Emission Scratch Unit} {pos : Nat}, lowerOperands table done op es s = .ok em →
    CodeAt lines pos em.lines → ∀ (k : Machine μ) (written : Nat → Option Word),
    Reaches world lines pos (pos + em.lines.length) (fun d =>
      (d.line = target ∨ d.line = pos + em.lines.length) ∧
        d.machine.registers .sp = k.registers .sp) ⟨⟨pos, k⟩, written⟩
  | _, [], _, _, _, h, _, k, written => by
    rw [lowerOperands_nil_ok h]
    exact .here ⟨.inr rfl, rfl⟩
  | op, e :: es, s, em, pos, h, hcode, k, written => by
    obtain ⟨a, c, ha, hc, rfl⟩ := lowerOperands_cons_ok h
    have hend : pos + (a.lines ++ (operandTest a.value done (flowLabel s.labels) op ++
        c.lines)).length = pos + a.lines.length +
          (operandTest a.value done (flowLabel s.labels) op).length + c.lines.length := by
      simp only [List.length_append]
      omega
    rw [hend]
    refine (lowerExpr_moves hu e ha hcode.left k written).trans le_rfl (by omega) ?_
    rintro ⟨⟨_, k₁⟩, written₁⟩ ⟨rfl, hsp₁⟩
    rw [UInt16.add_zero] at hsp₁
    obtain ⟨n, hpath⟩ := path_operandTest world hu hdone hcode.right.left k₁
    refine (Reaches.of_path (Q := fun d => (d.line = target ∨ d.line = pos + a.lines.length +
        (operandTest a.value done (flowLabel s.labels) op).length) ∧ d.machine = k₁)
      hpath fun _ => ⟨?_, rfl⟩).trans (by omega) (by omega) ?_
    · cases op.decides (k₁.registers a.value) with
      | true => exact .inl rfl
      | false => exact .inr rfl
    rintro ⟨⟨line, _⟩, written₂⟩ ⟨hline, rfl⟩
    rcases hline with rfl | rfl
    · exact .here ⟨.inl rfl, hsp₁⟩
    · refine (lowerOperands_moves hu hdone op es hc hcode.right.right _ written₂).trans (by omega)
        le_rfl ?_
      rintro d ⟨hd, hsp₂⟩
      exact .here ⟨hd, hsp₂.trans hsp₁⟩

/-- The lines of arguments leave a word on the stack for each of them, and the push of each one
writes so many words below where `sp` was in front of them all. -/
theorem lowerArguments_written (hu : (labelsOf lines).Nodup) : ∀ (es : List Expr) {s : Scratch}
    {em : Emission Scratch Unit} {pos : Nat}, lowerArguments table es s = .ok em →
    CodeAt lines pos em.lines → ∀ (k : Machine μ) (written : Nat → Option Word),
    Reaches world lines pos (pos + em.lines.length) (fun d => d.line = pos + em.lines.length ∧
      d.machine.registers .sp = k.registers .sp - argumentBytes es.length ∧
      ∀ i l, (pushLines table es s pos)[i]? = some l →
        d.written l = some (k.registers .sp - argumentBytes (i + 1))) ⟨⟨pos, k⟩, written⟩
  | [], _, _, _, h, _, k, written => by
    rw [lowerArguments_nil_ok h]
    exact .here ⟨rfl, (UInt16.sub_zero _).symm, by simp [pushLines]⟩
  | e :: es, s, _, pos, h, hcode, k, written => by
    obtain ⟨a, c, ha, hc, rfl⟩ := lowerArguments_cons_ok h
    have hend : pos + (a.lines ++ ([Line.instruction (.push a.value)] ++ c.lines)).length =
        pos + a.lines.length + 1 + c.lines.length := by
      simp only [List.length_append, List.length_singleton]
      omega
    rw [hend]
    refine (lowerExpr_moves hu e ha hcode.left k written).trans le_rfl (by omega) ?_
    rintro ⟨⟨_, k₁⟩, written₁⟩ ⟨rfl, hsp₁⟩
    rw [UInt16.add_zero] at hsp₁
    refine (Reaches.push (Q := fun d => d.line = pos + a.lines.length + 1 ∧
        d.machine.registers .sp = k.registers .sp - 2 ∧
        d.written (pos + a.lines.length) = some (k.registers .sp - 2)) hcode.right
      ⟨rfl, ?_, ?_⟩).trans (by omega) (by omega) ?_
    · rw [Machine.sp_pushed, hsp₁]
    · show Function.update written₁ _ _ _ = _
      rw [Function.update_self, hsp₁]
    rintro ⟨⟨_, k₂⟩, written₂⟩ ⟨rfl, hsp₂, hwritten⟩
    -- the lines behind the push leave alone what it noted
    refine (lowerArguments_written hu es hc hcode.right.tail k₂ written₂).frame.trans (by omega)
      le_rfl ?_
    rintro d ⟨⟨hline, hsp, hrest⟩, hframe⟩
    refine .here ⟨hline, ?_, fun i l hl => ?_⟩
    · rw [hsp, hsp₂, List.length_cons, argumentBytes_add, argumentBytes_one]
      grind
    · rw [pushLines_cons ha] at hl
      cases i with
      | zero =>
        cases hl
        exact (hframe _ (.inl (Nat.lt_succ_self _))).trans hwritten
      | succ i =>
        rw [hrest i l hl, hsp₂, argumentBytes_add (i + 1) 1, argumentBytes_one]
        grind

end

/-! ### Calls and functions -/

/-- The lines on which a call, lowered from line `pos` on, pushes its arguments: they stand behind
those that save registers and those of the callee. -/
def argumentLines (table : SymbolTable) (callee : Expr) (args : List Expr) (s : Scratch)
    (pos : Nat) : List Nat :=
  match lowerExpr table callee s with
  | .error _ => []
  | .ok a => pushLines table args a.state (pos + s.pool.live.length + a.lines.length)

/-- Each parameter of a function is at the address that the push of its argument wrote to. -/
def ArgumentsInPlace (world : World μ) (params : List Param) (symbols : SymbolTable)
    (pushes : List Nat) (c : TracedConfig μ) : Prop :=
  ∀ (i : Nat) (param : Param), params[i]? = some param → ∃ offset l,
    symbols.lookup param.name = some (.stack offset param.ty false) ∧ pushes[i]? = some l ∧
      c.written l = some (c.machine.locate world (.frame offset))

theorem call_notMem_callEnd (saved : List Register) (count : Nat) (result r : Register) :
    Line.instruction (.call r) ∉ callEnd saved count result := by
  simp [callEnd, dropArguments]

/-- The lines of a call in front of its `call` instruction: behind them the arguments lie below the
saved registers. -/
theorem lowerExpr_call_written (hu : (labelsOf lines).Nodup) {at_ : Position} {callee : Expr}
    {args : List Expr} {s : Scratch} {em : Emission Scratch Register}
    (h : lowerExpr table (.call at_ callee args) s = .ok em) (hcode : CodeAt lines pos em.lines) :
    ∃ front target back, em.lines = front ++ .instruction (.call target) :: back ∧
      (∀ r, .instruction (.call r) ∉ back) ∧
      (argumentLines table callee args s pos).length = args.length ∧
      (∀ l ∈ argumentLines table callee args s pos,
        ∃ i, lines[l]? = some (.instruction (.push (.general i)))) ∧
      ∀ (μ : Type) (world : World μ) (k : Machine μ) (written : Nat → Option Word),
        Reaches world lines pos (pos + front.length) (fun c => c.line = pos + front.length ∧
          ∃ top, c.machine.registers .sp = top - argumentBytes args.length ∧
            ∀ i l, (argumentLines table callee args s pos)[i]? = some l →
              c.written l = some (top - argumentBytes (i + 1))) ⟨⟨pos, k⟩, written⟩ := by
  obtain ⟨a, c, i, ha, hc, -, -, hlines⟩ := lowerExpr_call_lines h
  rw [hlines] at hcode
  have hargs := hcode.left.right.right
  simp only [List.length_map] at hargs
  refine ⟨_, a.value, _, hlines, call_notMem_callEnd _ _ _, ?_, ?_, ?_⟩
  · rw [argumentLines, ha]
    exact length_pushLines hc
  · rw [argumentLines, ha]
    exact isPush_of_mem_pushLines hc hargs
  · intro μ world k written
    rw [argumentLines, ha]
    have hfront : Moves world lines _ _ _ :=
      (Moves.pushes hcode.left.left).append (lowerExpr_moves hu callee ha hcode.left.right.left)
    have hend : pos + ((s.pool.live.map Instruction.push).map Line.instruction ++
        (a.lines ++ c.lines)).length =
          pos + s.pool.live.length + a.lines.length + c.lines.length := by
      simp only [List.length_append, List.length_map]
      omega
    rw [hend]
    refine (hfront k written).trans le_rfl (by simp; omega) ?_
    rintro ⟨⟨_, k'⟩, written'⟩ ⟨rfl, -⟩
    simp only [List.length_append, List.length_map, ← Nat.add_assoc]
    refine (lowerArguments_written hu args hc hargs k' written').trans (by omega) le_rfl ?_
    rintro d ⟨hline, hsp, hwritten⟩
    exact .here ⟨hline, k'.registers .sp, hsp, hwritten⟩

/-- The start of a function leaves in `sf` where it pushed the old frame pointer. -/
theorem reaches_prologue {name : String} {rest : List Line}
    (hcode : CodeAt lines pos (.label name :: (prologue.map .instruction ++ rest)))
    (k : Machine μ) (written : Nat → Option Word) :
    Reaches world lines pos (pos + 3)
      (fun d => d.line = pos + 3 ∧ d.machine.registers .sf = k.registers .sp - 2)
      ⟨⟨pos, k⟩, written⟩ := by
  let saved := k.pushed world (k.registers .sf)
  have hrun : k.executeAll world prologue = some (saved.set .sf (saved.registers .sp)) := rfl
  have hpath : Path world lines (pos + 1) (pos + 3) 2 _ _ := path_code hcode.tail.left hrun
  have hlabel : Path world lines pos (pos + 3) 1 ⟨pos, k⟩ ⟨pos + 1, k⟩ :=
    .one le_rfl (by simp) (step_label hcode)
  refine .of_path (hlabel.trans (hpath.mono (Nat.le_succ pos) le_rfl)) fun _ => ⟨rfl, ?_⟩
  rw [Machine.registers_set_self, Machine.sp_pushed]

/-- What a function finds at an offset is where the caller put it. -/
theorem frame_eq_argument {n i : Nat} (hi : i < n) (top : Word) :
    top - argumentBytes n - 2 - 2 + (argumentBytes (n - i) + 2) = top - argumentBytes (i + 1) := by
  have hsum : argumentBytes n + 2 = argumentBytes (i + 1) + argumentBytes (n - i) := by
    rw [← argumentBytes_one, ← argumentBytes_add, ← argumentBytes_add]
    congr 1
    omega
  grind

/-- From the `call` instruction of a call with the right number of arguments, a function finds its
parameters where they were pushed. -/
theorem argumentsInPlace_of_call {head : Signature} {symbols : SymbolTable} {pushes : List Nat}
    {rest : List Line} {c : TracedConfig μ} {top back : Word}
    (hcode : CodeAt lines pos (.label head.name :: (prologue.map .instruction ++ rest)))
    (hparams : ∀ i param, head.params[i]? = some param → ∃ offset : Int16,
      symbols.lookup param.name = some (.stack offset param.ty false) ∧
        offset.toInt = paramPlace head.params.length i)
    (hlength : pushes.length = head.params.length)
    (hpushes : ∀ l ∈ pushes, ∃ i, lines[l]? = some (.instruction (.push (.general i))))
    (hsp : c.machine.registers .sp = top - argumentBytes head.params.length)
    (hwritten : ∀ i l, pushes[i]? = some l → c.written l = some (top - argumentBytes (i + 1))) :
    Reaches world lines pos (pos + 3) (fun e => e.line = pos + 3 ∧
      ArgumentsInPlace world head.params symbols pushes e) (c.enter world pos back) := by
  refine (reaches_prologue hcode (c.machine.pushed world back) c.written).frame.mono ?_
  rintro e ⟨⟨hline, hsf⟩, hframe⟩
  refine ⟨hline, fun i param hi => ?_⟩
  obtain ⟨offset, hlookup, hoffset⟩ := hparams i param hi
  have hlt : i < head.params.length := (List.getElem?_eq_some_iff.1 hi).1
  have hl : pushes[i]? = some (pushes.get ⟨i, by omega⟩) := by simp
  generalize pushes.get ⟨i, by omega⟩ = l at hl
  refine ⟨offset, l, hlookup, hl, ?_⟩
  -- the function starts with a push, too, but not of a general register
  have hout : l < pos ∨ pos + 3 ≤ l := by
    obtain ⟨j, hj⟩ := hpushes l (List.mem_of_getElem? hl)
    by_contra hin
    obtain rfl | rfl | rfl : l = pos ∨ l = pos + 1 ∨ l = pos + 1 + 1 := by omega
    · rw [hcode.head] at hj
      cases hj
    · rw [show lines[pos + 1]? = _ from hcode.tail.head] at hj
      cases hj
    · rw [show lines[pos + 1 + 1]? = _ from hcode.tail.tail.head] at hj
      cases hj
  rw [hframe l hout]
  show c.written l = some (e.machine.registers .sf + offset.toUInt16)
  rw [hwritten i l hl, hsf, Machine.sp_pushed, hsp, toUInt16_of_paramPlace hlt hoffset,
    frame_eq_argument hlt]

/-- Callers and functions agree on where arguments lie. Each call of a program has its lines in the
listing. Each function definition of the program has the layout of its frame, and for each call with
as many arguments as it has parameters, wherever the lines of the call stand: every run of them gets
to their last `call` instruction, and if the function is entered from there, then right behind its
first two instructions each parameter is at the address that the push of its argument wrote to. -/
theorem Listing.ofProgram_arguments (file : String) (program : Program) (listing : Listing)
    (h : Listing.ofProgram file program = .ok listing) :
    (∀ call ∈ Stmt.callsOfAll program, LoweredIn listing.lines call) ∧
    ∀ pos head body, .function pos head body ∈ Stmt.functionsOfAll program →
      ∃ start lines entry exit locals room code, CodeAt listing.lines start lines ∧
        FrameLayout pos head body lines entry exit locals room code ∧
        lineOf listing.lines head.name = some start ∧
        ∀ table at_ callee args s em base,
          lowerExpr table (.call at_ callee args) s = .ok em → CodeAt listing.lines base em.lines →
          args.length = head.params.length →
          ∃ front target back, em.lines = front ++ .instruction (.call target) :: back ∧
            (∀ r, .instruction (.call r) ∉ back) ∧
            ∀ (μ : Type) (world : World μ) (k : Machine μ) (written : Nat → Option Word),
              Reaches world listing.lines base (base + front.length) (fun c =>
                c.line = base + front.length ∧ ∀ ret : Word,
                  Reaches world listing.lines start (start + 3) (fun e => e.line = start + 3 ∧
                    ArgumentsInPlace world head.params entry.symbols
                      (argumentLines table callee args s base) e) (c.enter world start ret))
                ⟨⟨base, k⟩, written⟩ := by
  refine ⟨Listing.ofProgram_calls h, fun pos head body hf => ?_⟩
  obtain ⟨before, lines, after, hlines, entry, exit, locals, room, code, hframe⟩ :=
    Listing.ofProgram_frameLayout h hf
  have hu : (labelsOf listing.lines).Nodup := by
    obtain ⟨e, he, rfl⟩ := Listing.ofProgram_ok h
    exact program_labels_nodup he
  have hcode : CodeAt listing.lines before.length lines := ⟨before, after, hlines, rfl⟩
  have hstart : CodeAt listing.lines before.length (.label head.name ::
      (prologue.map .instruction ++ (room.map .instruction ++
        (code ++ epilogue.map .instruction)))) := by
    have hcode' := hcode
    rw [hframe.lines_eq] at hcode'
    simpa using hcode'
  refine ⟨before.length, lines, entry, exit, locals, room, code, hcode, hframe,
    lineOf_of_codeAt hu hstart, ?_⟩
  intro table at_ callee args s em base hcall hbase hargs
  obtain ⟨front, target, back, hsplit, hlast, hlength, hpushes, hrun⟩ :=
    lowerExpr_call_written hu hcall hbase
  refine ⟨front, target, back, hsplit, hlast, fun μ world k written => ?_⟩
  refine (hrun μ world k written).mono ?_
  rintro c ⟨hline, top, hsp, hwritten⟩
  refine ⟨hline, fun ret => ?_⟩
  rw [hargs] at hsp hlength
  exact argumentsInPlace_of_call hstart hframe.params hlength hpushes hsp hwritten

/-- The call `f(f(1, 2), 3)`. -/
def nestedCall : Expr :=
  .call default (.name default "f")
    [.call default (.name default "f") [.number default 1, .number default 2], .number default 3]

/-- `int f(int a, char b) { } int main() { f(f(1, 2), 3); }` -/
def nestedArguments : Program :=
  [.function default ⟨"f", .int, [⟨"a", .int⟩, ⟨"b", .char⟩]⟩ (.block default []),
   .function default ⟨"main", .int, []⟩ (.block default [.expr default nestedCall])]

/-- The lines of `nestedCall` in `main`. Those of its first argument save the address of `f`, push
two arguments of their own, and undo it all. -/
def nestedCallLines : List Line :=
  [.instruction (.mov (Register.general 0) (.label "f")),
   .instruction (.push (.general 0)),
   .instruction (.mov (Register.general 1) (.label "f")),
   .instruction (.mov (Register.general 2) (.immediate 1)),
   .instruction (.push (.general 2)),
   .instruction (.mov (Register.general 2) (.immediate 2)),
   .instruction (.push (.general 2)),
   .instruction (.call (.general 1)),
   .instruction (.add .sp (.immediate 4)),
   .instruction (.pop (.general 0)),
   .instruction (.mov (Register.general 1) Register.rv),
   .instruction (.push (.general 1)),
   .instruction (.mov (Register.general 1) (.immediate 3)),
   .instruction (.push (.general 1)),
   .instruction (.call (.general 0)),
   .instruction (.add .sp (.immediate 4)),
   .instruction (.mov (Register.general 0) Register.rv)]

/-- The lines of `nestedArguments`. -/
def nestedArgumentsLines : List Line :=
  .label "f" :: ((prologue ++ epilogue).map .instruction ++ (.label "main" ::
    (prologue.map .instruction ++ (nestedCallLines ++ epilogue.map .instruction))))

/-- Between the two pushes for `f` lie no words of the call inside the first argument: they are at
the offsets 6 and 4. -/
theorem Listing.ofProgram_arguments_nested :
    let lines := nestedArgumentsLines
    let world := World.flat fun _ => 100
    Listing.ofProgram "a.c" nestedArguments = .ok ⟨"a.c", lines⟩ ∧
      LoweredIn lines nestedCall ∧ CodeAt lines 9 nestedCallLines ∧
      ∃ front target back, nestedCallLines = front ++ .instruction (.call target) :: back ∧
        (∀ r, .instruction (.call r) ∉ back) ∧
        Reaches world lines 9 (9 + front.length) (fun c => c.line = 9 + front.length ∧
          ∀ ret : Word, Reaches world lines 0 3 (fun e => e.line = 3 ∧
            e.written 20 = some (e.machine.registers .sf + 6) ∧
            e.written 22 = some (e.machine.registers .sf + 4)) (c.enter world 0 ret))
          ⟨⟨9, ⟨fun _ => 2, (0, 0), fun _ => 0⟩⟩, fun _ => none⟩ := by
  intro lines world
  have hprogram : Listing.ofProgram "a.c" nestedArguments = .ok ⟨"a.c", lines⟩ := by decide +kernel
  obtain ⟨hcalls, hfunctions⟩ := Listing.ofProgram_arguments "a.c" nestedArguments _ hprogram
  obtain ⟨start, _, entry, _, _, _, _, -, hframe, hstart, hall⟩ :=
    hfunctions default ⟨"f", .int, [⟨"a", .int⟩, ⟨"b", .char⟩]⟩ (.block default [])
      (by simp [nestedArguments, Stmt.functionsOfAll, Stmt.functions])
  have hcode : CodeAt lines 9 nestedCallLines := ⟨lines.take 9, lines.drop 26, rfl, rfl⟩
  obtain rfl : start = 0 := by
    have hzero : lineOf lines "f" = some 0 := by decide
    simpa [hzero] using hstart.symm
  let table : SymbolTable := ⟨[("f", .function 2 true), ("main", .function 0 true)], [[]]⟩
  obtain ⟨front, target, back, hfront, hback, hrun⟩ := hall table default (.name default "f")
    [.call default (.name default "f") [.number default 1, .number default 2], .number default 3]
    .empty ⟨.general 0, nestedCallLines, ⟨RegisterPool.empty.set 0 true, 0, []⟩⟩ 9
    (by decide +kernel) hcode rfl
  have hlines : argumentLines table (.name default "f") [.call default (.name default "f")
      [.number default 1, .number default 2], .number default 3] .empty 9 = [20, 22] := by
    decide +kernel
  refine ⟨hprogram, hcalls _ ?_, hcode, front, target, back, hfront, hback, ?_⟩
  · simp [nestedArguments, nestedCall, Stmt.callsOfAll, Stmt.calls, Expr.calls]
  · refine (hrun _ world _ _).mono fun c hc => ⟨hc.1, fun ret => (hc.2 ret).mono ?_⟩
    rintro e ⟨hline, hplaces⟩
    rw [hlines] at hplaces
    have hplace (i l : Nat) (param : Param) (place : Int16)
        (hi : [(⟨"a", .int⟩ : Param), ⟨"b", .char⟩][i]? = some param) (hl : [20, 22][i]? = some l)
        (heq : place.toInt = paramPlace 2 i) :
        e.written l = some (e.machine.registers .sf + place.toUInt16) := by
      obtain ⟨offset, l', hlookup, hl', hwritten⟩ := hplaces i param hi
      obtain ⟨offset', hlookup', hoffset⟩ := hframe.params i param hi
      obtain rfl : offset = offset' := by
        rw [hlookup] at hlookup'
        cases hlookup'
        rfl
      obtain rfl : offset = place := Int16.toInt_inj.1 (hoffset.trans heq.symm)
      rw [hl] at hl'
      cases hl'
      exact hwritten
    exact ⟨hline, hplace 0 20 ⟨"a", .int⟩ 6 rfl rfl rfl, hplace 1 22 ⟨"b", .char⟩ 4 rfl rfl rfl⟩

end WordC
