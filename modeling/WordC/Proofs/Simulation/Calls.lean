import WordC.Proofs.Machine.Stack
import WordC.Proofs.Simulation.Expr

/-!
# Calls keep what is in use

The lines of any expression, with calls anywhere in it, on a machine where a call leaves anything in
the general registers, in `rv` and in the memory: every run gets from their first line to behind
their last, with the stack and the frame pointer as they were, and with the old words in all
registers that were in use before (`RegisterPool.Holds`). The result of a call is what its own
`call` instruction left in `rv`.

The registers to save are those in use when the call is lowered. They lie on the stack below the
arguments, and the runs of the callee and of the arguments leave them there.
-/

namespace WordC

variable {μ : Type}

/-! ### Calls in expressions -/

/-- How many arguments a call may have, so that their bytes fit into an instruction. -/
def maxArguments : Nat := 32768

mutual

/-- Has every call in the expression so few arguments that their bytes fit into an instruction? -/
def Expr.hasShortCalls : Expr → Bool
  | .call _ callee args =>
    args.length < maxArguments && callee.hasShortCalls && haveShortCalls args
  | .assign _ target value => target.hasShortCalls && value.hasShortCalls
  | .logical _ _ operands => haveShortCalls operands
  | .binary _ _ left right => left.hasShortCalls && right.hasShortCalls
  | .unary _ _ operand => operand.hasShortCalls
  | .number .. | .character .. | .bool .. | .text .. | .name .. => true

/-- `hasShortCalls` for all expressions of a list. -/
def Expr.haveShortCalls : List Expr → Bool
  | [] => true
  | e :: es => e.hasShortCalls && Expr.haveShortCalls es

end

/-! ### Registers in use -/

namespace RegisterPool

/-- The general registers in use and the frame pointer hold the same words. -/
def Holds (p : RegisterPool) (k k' : Machine μ) : Prop :=
  (∀ i, p.isLive i = true → k'.registers (.general i) = k.registers (.general i)) ∧
    k'.registers .sf = k.registers .sf

variable {p q : RegisterPool} {a : Register} {k k' k'' : Machine μ}

theorem Keeps.holds (h : p.Keeps k k') : p.Holds k k' := ⟨fun i hi => h (.general i) hi, h .sf rfl⟩

theorem Holds.refl (p : RegisterPool) (k : Machine μ) : p.Holds k k := ⟨fun _ _ => rfl, rfl⟩

theorem Holds.trans (h : p.Holds k k') (h' : p.Holds k' k'') : p.Holds k k'' :=
  ⟨fun i hi => (h'.1 i hi).trans (h.1 i hi), h'.2.trans h.2⟩

theorem Holds.of_takes (ht : p.Takes a q) (h : q.Holds k k') : p.Holds k k' := by
  obtain ⟨i, rfl, -, rfl⟩ := ht
  refine ⟨fun j hj => h.1 j ?_, h.2⟩
  rw [isLive_set]
  split
  · rfl
  · exact hj

end RegisterPool

/-! ### Code that does not touch the stack -/

section Code

open Lowering

theorem usesStack_nameCode {r : Register} (hr : r ≠ .sp) (x : String) (symbol : Symbol) :
    ∀ i ∈ nameCode r x symbol, i.usesStack = false := by
  cases symbol with
  | stack offset ty constant =>
    by_cases hty : ty.isArray = true
    · by_cases hneg : offset < 0 <;>
        simp [nameCode, hty, frameAddressCode, hneg, Instruction.usesStack, hr]
    · simp [nameCode, hty, Instruction.usesStack]
  | static ty constant =>
    by_cases hty : ty.isArray = true <;> simp [nameCode, hty, Instruction.usesStack]
  | function arity defined => simp [nameCode, Instruction.usesStack]

theorem usesStack_binaryCode {a : Register} (ha : a ≠ .sp) (b : Register) (op : BinaryOp) :
    ∀ i ∈ binaryCode a b op, i.usesStack = false := by
  cases op <;> simp [binaryCode, compareCode, negateCode, Instruction.usesStack, ha]

theorem usesStack_unaryCode (a b : Register) (op : UnaryOp) :
    ∀ i ∈ unaryCode a b op, i.usesStack = false := by
  cases op <;> simp [unaryCode, negateCode, Instruction.usesStack]

theorem usesStack_operandTest (r : Register) (done next : String) (op : LogicalOp) :
    ∀ line ∈ operandTest r done next op, line.usesStack = false := by
  cases op <;> simp [operandTest, Line.usesStack, Instruction.usesStack]

end Code

/-! ### Whole expressions -/

section Expressions

open Lowering Emitter

variable {world : World μ} {lines : List Line} {table : SymbolTable} {pos : Nat} {k : Machine μ}
  {stack : List Word}

/-- The lines run through, with the stack as it was and what a pool has in use. -/
abbrev RunsHolding (world : World μ) (lines : List Line) (p : RegisterPool) (pos : Nat)
    (code : List Line) (k : Machine μ) (stack : List Word) : Prop :=
  Runs world lines pos code k stack fun k' stack' => stack' = stack ∧ p.Holds k k'

theorem runs_mov {p : RegisterPool} {i : Fin generalCount} {source : Operand}
    (hi : p.free? = some i)
    (hcode : CodeAt lines pos [.instruction (.mov (Register.general i) source)]) :
    RunsHolding world lines p pos [.instruction (.mov (Register.general i) source)] k stack := by
  have hfree := (RegisterPool.takes_of_free? hi).not_isKept
  have hc := changesOnly_set k (.general i) (.general i) (k.value world source)
  have hcode' : CodeAt lines pos ([.mov (Register.general i) source].map .instruction) := hcode
  exact Runs.instructions hcode' (by simp [Instruction.usesStack])
    (executeAll_mov world k _ source) ⟨rfl, (hc.keeps hfree hfree).holds⟩

theorem runs_load {s : Scratch} {em : Emission Scratch Register} {at_ : Position}
    {source : Operand} (h : load at_ source s = .ok em) (hcode : CodeAt lines pos em.lines) :
    RunsHolding world lines s.pool pos em.lines k stack := by
  obtain ⟨i, hi, rfl⟩ := load_ok h
  exact runs_mov hi hcode

theorem runs_loadName {s : Scratch} {em : Emission Scratch Register} {at_ : Position}
    {x : String} (h : loadName table at_ x s = .ok em) (hcode : CodeAt lines pos em.lines) :
    RunsHolding world lines s.pool pos em.lines k stack := by
  obtain ⟨symbol, i, -, hi, rfl⟩ := loadName_ok h
  have hfree := (RegisterPool.takes_of_free? hi).not_isKept
  obtain ⟨k', hk', -, hc⟩ := executeAll_nameCode world k (.general i) x symbol
  exact Runs.instructions hcode (usesStack_nameCode (r := .general i) nofun x symbol) hk'
    ⟨rfl, (hc.keeps hfree hfree).holds⟩

/-- A store changes no register. -/
theorem runs_store {p : RegisterPool} {address : Address} {r : Register}
    (hcode : CodeAt lines pos [.instruction (.mov address r)]) :
    RunsHolding world lines p pos [.instruction (.mov address r)] k stack := by
  have hcode' : CodeAt lines pos ([Instruction.mov address r].map .instruction) := hcode
  exact Runs.instructions hcode' (by simp [Instruction.usesStack]) rfl ⟨rfl, .refl p k⟩

/-- The arguments of a call are dropped. -/
theorem runs_dropArguments {ws : List Word} (hws : ws.length < maxArguments)
    (hcode : CodeAt lines pos ((dropArguments ws.length).map .instruction)) :
    Runs world lines pos ((dropArguments ws.length).map .instruction) k (ws ++ stack)
      fun k' stack' => k' = k ∧ stack' = stack := by
  have hbytes : (argumentBytes ws.length).toNat / wordBytes = ws.length := by
    have hmod : (argumentBytes ws.length).toNat = 2 * ws.length % 65536 := by
      simp [argumentBytes, wordBytes]
    simp only [maxArguments] at hws
    rw [hmod, wordBytes]
    omega
  rw [dropArguments] at hcode ⊢
  split
  · rename_i hzero
    obtain rfl := List.eq_nil_of_length_eq_zero hzero
    exact .nil ⟨rfl, rfl⟩
  · rename_i hzero
    rw [if_neg hzero] at hcode
    refine .cons ?_ (.nil ⟨rfl, rfl⟩)
    have hline : lines[pos]? = _ := hcode.head
    simp [stackStep?, hline, hbytes]

/-- Two stretches, the second of which may have one more register in use. -/
theorem RunsHolding.append {p q : RegisterPool} {a : Register} {code code' : List Line}
    (h : RunsHolding world lines p pos code k stack) (ht : p.Takes a q)
    (h' : ∀ k, RunsHolding world lines q (pos + code.length) code' k stack) :
    RunsHolding world lines p pos (code ++ code') k stack := by
  refine Runs.append h ?_
  rintro k' _ ⟨rfl, hk⟩
  exact (h' k').mono fun k'' _ hk' => ⟨hk'.1, hk.trans (hk'.2.of_takes ht)⟩

/-- The lines of a call behind its `call` instruction. -/
def callEnd (saved : List Register) (count : Nat) (result : Register) : List Line :=
  (dropArguments count).map .instruction ++ ((saved.reverse.map Instruction.pop).map .instruction ++
    [.instruction (.mov result Register.rv)])

/-- Behind a call what it saved is restored, and the result is what the call left in `rv`. -/
theorem runs_callEnd {p : RegisterPool} {i : Fin generalCount} {ws : List Word} {k₀ : Machine μ}
    (hi : p.free? = some i) (hws : ws.length < maxArguments)
    (hsf : k.registers .sf = k₀.registers .sf)
    (hcode : CodeAt lines pos (callEnd p.live ws.length (.general i))) :
    Runs world lines pos (callEnd p.live ws.length (.general i)) k
      (ws ++ ((p.live.map k₀.registers).reverse ++ stack))
      fun k' stack' => stack' = stack ∧ p.Holds k₀ k' ∧
        k'.registers (.general i) = k.registers .rv := by
  refine Runs.append (runs_dropArguments hws hcode.left) ?_
  rintro k _ ⟨rfl, rfl⟩
  rw [← List.map_reverse]
  refine Runs.append (P := fun k' stack' => stack' = stack ∧ p.Holds k₀ k' ∧
    k'.registers .rv = k.registers .rv) (Runs.pops hcode.right.left ?_) ?_
  · intro k' hin hout
    refine ⟨rfl, ⟨fun j hj => hin _ ?_, (hout _ ?_).trans hsf⟩, hout _ ?_⟩
    · exact List.mem_reverse.2 (RegisterPool.mem_live.2 ⟨j, rfl, hj⟩)
    · simp [RegisterPool.mem_live]
    · simp [RegisterPool.mem_live]
  · rintro k' _ ⟨rfl, hk', hrv⟩
    have hfree := (RegisterPool.takes_of_free? hi).not_isKept
    have hset := changesOnly_set k' (.general i) (.general i) (k'.registers .rv)
    have hmove : CodeAt lines _
      ([Instruction.mov (Register.general i) Register.rv].map .instruction) := hcode.right.right
    refine Runs.instructions hmove (by simp [Instruction.usesStack]) (executeAll_mov world k' _ _)
      ⟨rfl, hk'.trans (hset.keeps hfree hfree).holds, ?_⟩
    rw [Machine.registers_set_self]
    exact hrv

/-- The lines in front of a `call` instruction leave the saved registers on the stack, and above
them the arguments. -/
theorem runs_callFront {p : RegisterPool} {callee args : List Line} {count : Nat}
    (hcallee : ∀ {pos k stack}, CodeAt lines pos callee →
      RunsHolding world lines p pos callee k stack)
    (hargs : ∀ {pos k stack}, CodeAt lines pos args → Runs world lines pos args k stack
      fun k' stack' => k'.registers .sf = k.registers .sf ∧
        ∃ ws : List Word, ws.length = count ∧ stack' = ws ++ stack)
    (hcode : CodeAt lines pos
      ((p.live.map Instruction.push).map .instruction ++ (callee ++ args))) :
    Runs world lines pos ((p.live.map Instruction.push).map .instruction ++ (callee ++ args)) k
      stack fun k' stack' => k'.registers .sf = k.registers .sf ∧
        ∃ ws : List Word, ws.length = count ∧
          stack' = ws ++ ((p.live.map k.registers).reverse ++ stack) := by
  refine Runs.append (P := fun k' stack' => k' = k ∧
    stack' = (p.live.map k.registers).reverse ++ stack) (Runs.pushes hcode.left ⟨rfl, rfl⟩) ?_
  rintro k _ ⟨rfl, rfl⟩
  refine Runs.append (hcallee hcode.right.left) ?_
  rintro k' _ ⟨rfl, hk'⟩
  refine (hargs hcode.right.right).mono ?_
  rintro k'' _ ⟨hsf, hws⟩
  exact ⟨hsf.trans hk'.2, hws⟩

/-- Every run gets to a `call` instruction on a given line and, whatever that call leaves, gets to
a state that is related by `Q` to the one right behind the call. -/
def CallsAt (world : World μ) (lines : List Line) (lo hi line : Nat)
    (Q : Machine μ → StackConfig μ → Prop) (c : StackConfig μ) : Prop :=
  Ends world lines lo hi (fun c => c.line = line ∧ c.line < hi ∧
    (∃ target, lines[c.line]? = some (.instruction (.call target))) ∧
    ∀ d, StackStep world lines c d → Ends world lines lo hi (Q d.machine) d) c

theorem CallsAt.ends {lo hi line : Nat} {Q : Machine μ → StackConfig μ → Prop}
    {Q' : StackConfig μ → Prop} {c : StackConfig μ} (h : CallsAt world lines lo hi line Q c)
    (hlo : lo ≤ line) (hQ : ∀ k d, Q k d → Q' d) : Ends world lines lo hi Q' c := by
  refine h.trans le_rfl le_rfl ?_
  rintro c ⟨rfl, hhi, ⟨target, hcall⟩, hnext⟩
  exact .step hlo hhi ⟨_, .call hcall rfl⟩ fun d hd => (hnext d hd).mono (hQ _)

/-- Behind the lines in front of it, a call runs to the end of its lines. -/
theorem runs_call {p : RegisterPool} {i : Fin generalCount} {target : Register} {count : Nat}
    {front : List Line} (hi : p.free? = some i) (hcount : count < maxArguments)
    (hfront : Runs world lines pos front k stack fun k' stack' =>
      k'.registers .sf = k.registers .sf ∧ ∃ ws : List Word, ws.length = count ∧
        stack' = ws ++ ((p.live.map k.registers).reverse ++ stack))
    (hcode : CodeAt lines pos
      (front ++ .instruction (.call target) :: callEnd p.live count (.general i))) :
    CallsAt world lines pos
      (pos + (front ++ .instruction (.call target) :: callEnd p.live count (.general i)).length)
      (pos + front.length) (fun k₁ d =>
        d.line = pos +
            (front ++ .instruction (.call target) :: callEnd p.live count (.general i)).length ∧
          d.stack = stack ∧ p.Holds k d.machine ∧
          d.machine.registers (.general i) = k₁.registers .rv) ⟨⟨pos, k⟩, stack⟩ := by
  have hend : pos + (front ++ Line.instruction (.call target) ::
      callEnd p.live count (.general i)).length =
        pos + front.length + 1 + (callEnd p.live count (.general i)).length := by
    rw [List.length_append, List.length_cons]
    omega
  rw [hend]
  refine hfront.trans le_rfl (by omega) ?_
  rintro ⟨⟨_, k'⟩, _⟩ ⟨rfl, hsf, ws, rfl, rfl⟩
  refine .here ⟨rfl, by dsimp only; omega, ⟨target, hcode.right.head⟩, fun d hd => ?_⟩
  cases hd with
  | plain h =>
    have hline : lines[pos + front.length]? = some (.instruction (.call target)) := hcode.right.head
    simp [stackStep?, hline, WordC.step, Machine.execute] at h
  | @call _ k₁ _ hsf' =>
    have hsf₁ : k₁.registers .sf = k.registers .sf := hsf'.trans hsf
    refine (runs_callEnd hi hcount hsf₁ hcode.right.tail).trans (by omega) le_rfl fun d hd => ?_
    exact .here ⟨hd.1, hd.2.1, hd.2.2.1, hd.2.2.2⟩

/-- The lines of a call: those in front of the `call` instruction, the instruction, the rest. -/
theorem lowerExpr_call_lines {at_ : Position} {callee : Expr} {args : List Expr} {s : Scratch}
    {em : Emission Scratch Register} (h : lowerExpr table (.call at_ callee args) s = .ok em) :
    ∃ a c i, lowerExpr table callee s = .ok a ∧ lowerArguments table args a.state = .ok c ∧
      s.pool.free? = some i ∧ em.value = .general i ∧
      em.lines = ((s.pool.live.map Instruction.push).map .instruction ++ (a.lines ++ c.lines)) ++
        .instruction (.call a.value) :: callEnd s.pool.live args.length (.general i) := by
  obtain ⟨a, c, i, ha, hc, hi, rfl⟩ := lowerExpr_call_ok h
  have hpool : c.state.pool.free a.value = s.pool := by
    rw [lowerArguments_pool args hc, (lowerExpr_takes callee ha).free_eq]
  rw [hpool] at hi
  exact ⟨a, c, i, ha, hc, hi, rfl, by simp [callCode, callEnd]⟩

mutual

/-- The lines of an expression run through and keep the stack and the registers in use. -/
theorem lowerExpr_runs (hu : (labelsOf lines).Nodup) : ∀ (e : Expr) {s : Scratch}
    {em : Emission Scratch Register} {pos : Nat} {k : Machine μ} {stack : List Word},
    lowerExpr table e s = .ok em → e.hasShortCalls = true → CodeAt lines pos em.lines →
    RunsHolding world lines s.pool pos em.lines k stack
  | .number .., _, _, _, _, _, h, _, hcode => runs_load (by rwa [lowerExpr] at h) hcode
  | .character .., _, _, _, _, _, h, _, hcode => runs_load (by rwa [lowerExpr] at h) hcode
  | .bool .., _, _, _, _, _, h, _, hcode => runs_load (by rwa [lowerExpr] at h) hcode
  | .text .., _, _, _, _, _, h, _, hcode => by
    obtain ⟨i, hi, rfl⟩ := lowerExpr_text_ok h
    exact runs_mov hi hcode
  | .name .., _, _, _, _, _, h, _, hcode => runs_loadName (by rwa [lowerExpr] at h) hcode
  | .assign _ target value, s, _, _, _, _, h, hcall, hcode => by
    simp only [Expr.hasShortCalls, Bool.and_eq_true] at hcall
    obtain ⟨place, hp⟩ := lowerExpr_assign_ok h
    cases place with
    | named at_ x =>
      obtain ⟨symbol, address, a, -, -, ha, rfl⟩ := lowerExpr_assign_named_ok hp h
      exact (lowerExpr_runs hu value ha hcall.2 hcode.left).append (lowerExpr_takes value ha)
        fun _ => runs_store hcode.right
    | pointee at_ x =>
      obtain ⟨a, b, ha, hb, rfl⟩ := lowerExpr_assign_pointee_ok hp h
      refine (runs_loadName ha hcode.left).append (loadName_takes ha) fun _ => ?_
      exact (lowerExpr_runs hu value hb hcall.2 hcode.right.left).append (lowerExpr_takes value hb)
        fun _ => runs_store hcode.right.right
  | .binary _ op left right, s, _, _, _, _, h, hcall, hcode => by
    simp only [Expr.hasShortCalls, Bool.and_eq_true] at hcall
    obtain ⟨a, b, ha, hb, rfl⟩ := lowerExpr_binary_ok h
    have hta := lowerExpr_takes left ha
    have htb := lowerExpr_takes right hb
    refine Runs.append (lowerExpr_runs hu left ha hcall.1 hcode.left) ?_
    rintro k₁ _ ⟨rfl, hk₁⟩
    refine Runs.append (lowerExpr_runs hu right hb hcall.2 hcode.right.left) ?_
    rintro k₂ _ ⟨rfl, hk₂⟩
    obtain ⟨k₃, hrun, -, hc⟩ := executeAll_binaryCode world k₂ (hta.ne htb) op
    have hkeep : s.pool.Keeps k₂ k₃ := hc.keeps hta.not_isKept (htb.not_isKept_before hta)
    exact Runs.instructions hcode.right.right (usesStack_binaryCode hta.ne_sp _ op) hrun
      ⟨rfl, hk₁.trans ((hk₂.of_takes hta).trans hkeep.holds)⟩
  | .unary _ op operand, s, _, _, _, _, h, hcall, hcode => by
    obtain ⟨a, i, ha, hi, rfl⟩ := lowerExpr_unary_ok h
    have hta := lowerExpr_takes operand ha
    have hti := RegisterPool.takes_of_free? hi
    refine Runs.append
      (lowerExpr_runs hu operand ha (by simpa [Expr.hasShortCalls] using hcall) hcode.left) ?_
    rintro k₁ _ ⟨rfl, hk₁⟩
    obtain ⟨k₂, hrun, -, hc⟩ := executeAll_unaryCode world k₁ (hta.ne hti) op
    have hkeep : s.pool.Keeps k₁ k₂ := hc.keeps hta.not_isKept (hti.not_isKept_before hta)
    exact Runs.instructions hcode.right (usesStack_unaryCode _ _ op) hrun
      ⟨rfl, hk₁.trans hkeep.holds⟩
  | .logical _ op operands, s, _, pos, k, stack, h, hcall, hcode => by
    obtain ⟨i, c, hi, hc, rfl⟩ := lowerExpr_logical_ok h
    have htakes := RegisterPool.takes_of_free? hi
    have hend := hcode.right.right
    have hdone := lineOf_of_codeAt hu hend.tail
    refine Runs.append (P := fun k' stack' => stack' = stack ∧ s.pool.Holds k k' ∧
      k'.registers (.general i) = op.outcome true) ?_ ?_
    · have hmove : CodeAt lines pos
        ([.mov (Register.general i) (.immediate (op.outcome true))].map .instruction) := hcode.left
      have hset := changesOnly_set k (.general i) (.general i) (op.outcome true)
      exact Runs.instructions hmove (by simp [Instruction.usesStack]) (executeAll_mov world k _ _)
        ⟨rfl, (hset.keeps htakes.not_isKept htakes.not_isKept).holds, k.registers_set_self _ _⟩
    rintro k₁ _ ⟨rfl, hk₁, hr₁⟩
    refine (lowerOperands_runs hu hdone op operands hc (by simpa [Expr.hasShortCalls] using hcall)
      hcode.right.left).trans le_rfl (by simp) ?_
    rintro ⟨⟨line, k₂⟩, stack⟩ ⟨hline, rfl, hk₂⟩
    -- the result was set beforehand and is in use while the operands run
    have hr₂ : k₂.registers (.general i) = op.outcome true :=
      (hk₂.1 i (by simp [RegisterPool.isLive_set])).trans hr₁
    obtain ⟨decided, hdecided⟩ : ∃ decided : Bool, line = if decided then
        pos + 1 + c.lines.length + 1 else pos + 1 + c.lines.length := by
      rcases hline with hline | hline
      · exact ⟨true, hline⟩
      · exact ⟨false, hline⟩
    obtain ⟨n, k₃, hpath, -, hc₃⟩ := path_logicalEnd world hend k₂ decided hr₂
    have hk₃ : s.pool.Holds k k₃ := hk₁.trans ((hk₂.of_takes htakes).trans
      (hc₃.keeps htakes.not_isKept htakes.not_isKept).holds)
    subst hdecided
    refine (Ends.of_path_code (Q := fun d => d.line = pos + 1 + c.lines.length + 2 ∧
      d.machine = k₃ ∧ d.stack = stack) hend ?_ hpath ⟨rfl, rfl, rfl⟩).trans ?_ ?_ ?_
    · simp [Line.usesStack, Instruction.usesStack]
    · simp
    · simp [Nat.add_assoc]
    · rintro ⟨⟨_, _⟩, _⟩ ⟨rfl, rfl, rfl⟩
      exact .here ⟨by simp [Nat.add_assoc], rfl, hk₃⟩
  | .call _ callee args, s, _, pos, k, stack, h, hcall, hcode => by
    simp only [Expr.hasShortCalls, Bool.and_eq_true, decide_eq_true_eq] at hcall
    obtain ⟨a, c, i, ha, hc, hi, -, hlines⟩ := lowerExpr_call_lines h
    rw [hlines] at hcode ⊢
    refine (runs_call hi hcall.1.1 (runs_callFront ?_ ?_ hcode.left) hcode).ends (by omega) ?_
    · exact fun h => lowerExpr_runs hu callee ha hcall.1.2 h
    · exact fun h => (lowerArguments_runs hu args hc hcall.2 h).mono fun _ _ hk => ⟨hk.1.2, hk.2⟩
    · exact fun _ _ hd => ⟨hd.1, hd.2.1, hd.2.2.1⟩

/-- The operands of a logical operator run through, or leave for its end. -/
theorem lowerOperands_runs (hu : (labelsOf lines).Nodup) {done : String} {target : Nat}
    (hdone : lineOf lines done = some target) : ∀ (op : LogicalOp) (es : List Expr) {s : Scratch}
    {em : Emission Scratch Unit} {pos : Nat} {k : Machine μ} {stack : List Word},
    lowerOperands table done op es s = .ok em → Expr.haveShortCalls es = true →
    CodeAt lines pos em.lines →
    Ends world lines pos (pos + em.lines.length) (fun d =>
      (d.line = target ∨ d.line = pos + em.lines.length) ∧ d.stack = stack ∧
        s.pool.Holds k d.machine) ⟨⟨pos, k⟩, stack⟩
  | _, [], _, _, _, _, _, h, _, _ => by
    rw [lowerOperands_nil_ok h]
    exact .here ⟨.inr rfl, rfl, .refl _ _⟩
  | op, e :: es, s, em, pos, k, stack, h, hcall, hcode => by
    simp only [Expr.haveShortCalls, Bool.and_eq_true] at hcall
    obtain ⟨a, c, ha, hc, rfl⟩ := lowerOperands_cons_ok h
    have hpool := (lowerExpr_takes e ha).free_eq
    have hend :
        pos + (a.lines ++ (operandTest a.value done (flowLabel s.labels) op ++ c.lines)).length =
        pos + a.lines.length + (operandTest a.value done (flowLabel s.labels) op).length +
          c.lines.length := by
      simp only [List.length_append]
      omega
    rw [hend]
    refine (lowerExpr_runs hu e ha hcall.1 hcode.left).trans le_rfl (by omega) ?_
    rintro ⟨⟨_, k₁⟩, stack⟩ ⟨rfl, rfl, hk₁⟩
    obtain ⟨n, hpath⟩ := path_operandTest world hu hdone hcode.right.left k₁
    refine (Ends.of_path_code (Q := fun d => (d.line = target ∨ d.line = pos + a.lines.length +
        (operandTest a.value done (flowLabel s.labels) op).length) ∧ d.machine = k₁ ∧
          d.stack = stack)
      hcode.right.left (usesStack_operandTest _ _ _ op) hpath ⟨?_, rfl, rfl⟩).trans (by omega)
      (by omega) ?_
    · cases op.decides (k₁.registers a.value) with
      | true => exact .inl rfl
      | false => exact .inr rfl
    rintro ⟨⟨line, _⟩, _⟩ ⟨hline, rfl, rfl⟩
    rcases hline with rfl | rfl
    · exact .here ⟨.inl rfl, rfl, hk₁⟩
    · refine (lowerOperands_runs hu hdone op es hc hcall.2 hcode.right.right).trans (by omega)
        le_rfl ?_
      rintro d ⟨hline, hstack, hk₂⟩
      simp only [hpool] at hk₂
      exact .here ⟨hline, hstack, hk₁.trans hk₂⟩

/-- The lines of arguments push a word for each of them. -/
theorem lowerArguments_runs (hu : (labelsOf lines).Nodup) : ∀ (es : List Expr) {s : Scratch}
    {em : Emission Scratch Unit} {pos : Nat} {k : Machine μ} {stack : List Word},
    lowerArguments table es s = .ok em → Expr.haveShortCalls es = true → CodeAt lines pos em.lines →
    Runs world lines pos em.lines k stack fun k' stack' => s.pool.Holds k k' ∧
      ∃ ws : List Word, ws.length = es.length ∧ stack' = ws ++ stack
  | [], _, _, _, _, _, h, _, _ => by
    rw [lowerArguments_nil_ok h]
    exact .nil ⟨.refl _ _, [], rfl, rfl⟩
  | e :: es, s, _, _, _, _, h, hcall, hcode => by
    simp only [Expr.haveShortCalls, Bool.and_eq_true] at hcall
    obtain ⟨a, c, ha, hc, rfl⟩ := lowerArguments_cons_ok h
    have hpool := (lowerExpr_takes e ha).free_eq
    refine Runs.append (lowerExpr_runs hu e ha hcall.1 hcode.left) ?_
    rintro k' _ ⟨rfl, hk'⟩
    refine Runs.push hcode.right ?_
    refine (lowerArguments_runs hu es hc hcall.2 hcode.right.tail).mono ?_
    rintro k'' _ ⟨hk'', ws, hws, rfl⟩
    simp only [hpool] at hk''
    exact ⟨hk'.trans hk'', ws ++ [k'.registers a.value], by simp [hws], by simp⟩

end

/-- The lines of an expression, with calls anywhere in it, in any listing with distinct labels:
every run gets from their first line to behind their last, with the stack as it was, and with the
old words in the registers in use and in the frame pointer. If the expression is itself a call,
every run gets to the last `call` instruction of its lines, and the result is what that call leaves
in `rv`. -/
theorem lowerExpr_preserves_live (world : World μ) (table : SymbolTable) (e : Expr) (s : Scratch)
    (em : Emission Scratch Register) (before after : List Line) (k : Machine μ) (stack : List Word)
    (h : lowerExpr table e s = .ok em) (hcalls : e.hasShortCalls = true)
    (hu : (labelsOf (before ++ (em.lines ++ after))).Nodup) :
    Ends world (before ++ (em.lines ++ after)) before.length (before.length + em.lines.length)
        (fun d => d.line = before.length + em.lines.length ∧ d.stack = stack ∧
          s.pool.Holds k d.machine) ⟨⟨before.length, k⟩, stack⟩ ∧
      ∀ pos callee args, e = .call pos callee args →
        ∃ front target back, em.lines = front ++ .instruction (.call target) :: back ∧
          (∀ r, Line.instruction (.call r) ∉ back) ∧
          CallsAt world (before ++ (em.lines ++ after)) before.length
            (before.length + em.lines.length) (before.length + front.length)
            (fun k₁ d => d.line = before.length + em.lines.length ∧ d.stack = stack ∧
              s.pool.Holds k d.machine ∧ d.machine.registers em.value = k₁.registers .rv)
            ⟨⟨before.length, k⟩, stack⟩ := by
  have hcode : CodeAt (before ++ (em.lines ++ after)) before.length em.lines :=
    ⟨before, after, rfl, rfl⟩
  refine ⟨lowerExpr_runs hu e h hcalls hcode, ?_⟩
  rintro pos callee args rfl
  simp only [Expr.hasShortCalls, Bool.and_eq_true, decide_eq_true_eq] at hcalls
  obtain ⟨a, c, i, ha, hc, hi, hvalue, hlines⟩ := lowerExpr_call_lines h
  refine ⟨_, a.value, _, hlines, ?_, ?_⟩
  · intro r hr
    simp [callEnd, dropArguments] at hr
  · generalize before ++ (em.lines ++ after) = lines at hu hcode ⊢
    rw [hlines] at hcode ⊢
    rw [hvalue]
    refine runs_call hi hcalls.1.1 (runs_callFront ?_ ?_ hcode.left) hcode
    · exact fun h => lowerExpr_runs hu callee ha hcalls.1.2 h
    · exact fun h => (lowerArguments_runs hu args hc hcalls.2 h).mono fun _ _ hk => ⟨hk.1.2, hk.2⟩

/-- The lines of `f(g())` where `r0` holds 7 and is in use: it is saved twice, the second time with
the address of `f`, and holds 7 again behind them. -/
theorem lowerExpr_preserves_live_nested :
    let em : Emission Scratch Register := ⟨.general 1,
      [.instruction (.push (.general 0)),
       .instruction (.mov (Register.general 1) (.label "f")),
       .instruction (.push (.general 0)),
       .instruction (.push (.general 1)),
       .instruction (.mov (Register.general 2) (.label "g")),
       .instruction (.call (.general 2)),
       .instruction (.pop (.general 1)),
       .instruction (.pop (.general 0)),
       .instruction (.mov (Register.general 2) Register.rv),
       .instruction (.push (.general 2)),
       .instruction (.call (.general 1)),
       .instruction (.add .sp (.immediate 2)),
       .instruction (.pop (.general 0)),
       .instruction (.mov (Register.general 1) Register.rv)],
      ⟨(RegisterPool.empty.set 0 true).set 1 true, 0, []⟩⟩
    let lines : List Line := [.label "main"] ++ (em.lines ++ [.instruction .ret])
    let k : Machine (Word → Word) := ⟨fun _ => 7, (0, 0), fun _ => 0⟩
    lowerExpr ⟨[("f", .function 1 true), ("g", .function 0 true)], []⟩
        (.call default (.name default "f") [.call default (.name default "g") []])
        ⟨RegisterPool.empty.set 0 true, 0, []⟩ = .ok em ∧
      (labelsOf lines).Nodup ∧
      Ends (World.flat fun _ => 100) lines 1 15 (fun d => d.line = 15 ∧ d.stack = [5] ∧
        d.machine.registers (.general 0) = 7) ⟨⟨1, k⟩, [5]⟩ ∧
      ∃ front target back, em.lines = front ++ .instruction (.call target) :: back ∧
        (∀ r, Line.instruction (.call r) ∉ back) ∧
        CallsAt (World.flat fun _ => 100) lines 1 15 (1 + front.length) (fun k₁ d => d.line = 15 ∧
          d.stack = [5] ∧ (RegisterPool.empty.set 0 true).Holds k d.machine ∧
          d.machine.registers (.general 1) = k₁.registers .rv) ⟨⟨1, k⟩, [5]⟩ := by
  intro em lines k
  have hlower : lowerExpr ⟨[("f", .function 1 true), ("g", .function 0 true)], []⟩
      (.call default (.name default "f") [.call default (.name default "g") []])
      ⟨RegisterPool.empty.set 0 true, 0, []⟩ = .ok em := by
    decide +kernel
  have hu : (labelsOf lines).Nodup := by decide
  obtain ⟨hends, hcall⟩ := lowerExpr_preserves_live (World.flat fun _ => 100) _ _ _ em
    [.label "main"] [.instruction .ret] k [5] hlower (by decide) hu
  exact ⟨hlower, hu, hends.mono fun d hd => ⟨hd.1, hd.2.1, hd.2.2.1 0 (by decide)⟩,
    hcall _ _ _ rfl⟩

end Expressions

end WordC
