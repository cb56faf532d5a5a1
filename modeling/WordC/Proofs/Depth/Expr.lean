import WordC.Proofs.Depth.Lines
import WordC.Proofs.Simulation.Arguments

/-!
# The depth of the stack in expressions

The lines of an expression, entered at any depth, are left at that depth, and so is every label of
a logical operator in them, wherever it lies between the saved registers and the arguments of calls
around it (`lowerExpr_leads`).
-/

namespace WordC

theorem RegisterPool.general_of_mem_live (p : RegisterPool) :
    ∀ r ∈ p.live, ∃ i, r = .general i := by
  intro r hr
  obtain ⟨i, rfl, -⟩ := mem_live.1 hr
  exact ⟨i, rfl⟩

theorem RegisterPool.Takes.general {p q : RegisterPool} {r : Register} (h : p.Takes r q) :
    ∃ i, r = .general i := by
  obtain ⟨i, rfl, -, -⟩ := h
  exact ⟨i, rfl⟩

namespace Lowering

variable {table : SymbolTable} {d : Word} {exits : List (String × Word)} {i j : Fin generalCount}

/-! ### Code without jumps -/

theorem isSteady_nameCode (i : Fin generalCount) (x : String) (symbol : Symbol) :
    (nameCode (.general i) x symbol).all Instruction.isSteady = true := by
  cases symbol with
  | stack offset ty _ =>
    rw [nameCode]
    split
    · rw [frameAddressCode]
      split <;> rfl
    · rfl
  | static ty _ =>
    rw [nameCode]
    split <;> rfl
  | function => rfl

theorem isSteady_binaryCode (i j : Fin generalCount) (op : BinaryOp) :
    (binaryCode (.general i) (.general j) op).all Instruction.isSteady = true := by
  cases op <;> rfl

theorem isSteady_unaryCode (i j : Fin generalCount) (op : UnaryOp) :
    (unaryCode (.general i) (.general j) op).all Instruction.isSteady = true := by
  cases op <;> rfl

theorem leads_mov {source : Operand} :
    Leads exits d [.instruction (.mov (Register.general i) source)] d :=
  @Leads.steady _ _ [_] rfl

theorem leads_store {address : Address} {source : Operand} :
    Leads exits d [.instruction (.mov address source)] d :=
  @Leads.steady _ _ [_] rfl

theorem leads_call {callee : Register} : Leads exits d [.instruction (.call callee)] d :=
  @Leads.steady _ _ [_] rfl

/-- A push of a general register makes the stack one word deeper. -/
theorem leads_push : Leads exits d [.instruction (.push (.general i))] (d + 2) :=
  .of_frameless rfl rfl (by simp [depthsOf, Line.jump?, Instruction.jump?])

/-- A pop of a general register takes one word off. -/
theorem leads_pop : Leads exits (d + 2) [.instruction (.pop (.general i))] d := by
  refine .of_frameless rfl ?_ (by simp [depthsOf, Line.jump?, Instruction.jump?])
  simp only [rise, Line.isFrame, Instruction.isFrame, Line.growth, Instruction.growth]
  grind

theorem add_argumentBytes_succ (n : Nat) :
    d + argumentBytes (n + 1) = d + 2 + argumentBytes n := by
  rw [Nat.add_comm, argumentBytes_add, argumentBytes_one, UInt16.add_assoc]

theorem leads_pushes {saved : List Register} (h : ∀ r ∈ saved, ∃ i, r = .general i) :
    Leads exits d ((saved.map Instruction.push).map .instruction)
      (d + argumentBytes saved.length) := by
  induction saved generalizing d with
  | nil => simpa [argumentBytes] using Leads.nil
  | cons r saved ih =>
    rw [List.forall_mem_cons] at h
    obtain ⟨i, rfl⟩ := h.1
    rw [List.length_cons, add_argumentBytes_succ]
    exact leads_push.append (ih h.2)

theorem leads_pops {saved : List Register} (h : ∀ r ∈ saved, ∃ i, r = .general i) :
    Leads exits (d + argumentBytes saved.length) ((saved.map Instruction.pop).map .instruction)
      d := by
  induction saved generalizing d with
  | nil => simpa [argumentBytes] using Leads.nil
  | cons r saved ih =>
    rw [List.forall_mem_cons] at h
    obtain ⟨i, rfl⟩ := h.1
    rw [List.length_cons, argumentBytes_add, argumentBytes_one, ← UInt16.add_assoc]
    exact leads_pop.append (ih h.2)

theorem leads_dropArguments (count : Nat) :
    Leads exits (d + argumentBytes count) ((dropArguments count).map .instruction) d := by
  by_cases hcount : count = 0
  · subst hcount
    simpa [argumentBytes, dropArguments] using Leads.nil
  · rw [dropArguments, if_neg hcount]
    refine .of_frameless rfl ?_ (by simp [depthsOf, Line.jump?, Instruction.jump?])
    simp only [List.map_cons, List.map_nil, rise, Line.isFrame, Instruction.isFrame, Line.growth,
      Instruction.growth]
    grind

/-- The lines behind a `call` instruction take off the arguments and what was saved. -/
theorem leads_callEnd (p : RegisterPool) (count : Nat) :
    Leads exits (d + argumentBytes p.live.length + argumentBytes count)
      (callEnd p.live count (.general i)) d := by
  have hpops : Leads exits (d + argumentBytes p.live.reverse.length)
      ((p.live.reverse.map Instruction.pop).map .instruction) d :=
    leads_pops fun r hr => p.general_of_mem_live r (List.mem_reverse.1 hr)
  rw [List.length_reverse] at hpops
  exact (leads_dropArguments count).append (hpops.append leads_mov)

/-- The lines behind an operand leave for the end or go on to the next one, at one depth. -/
theorem leads_operandTest {r : Register} {done next : String} (op : LogicalOp)
    (hdone : (done, d) ∈ exits) : Leads exits d (operandTest r done next op) d := by
  cases op with
  | or => exact .jnz hdone
  | and =>
    have hleave : Leads ((next, d) :: exits) d [.instruction (.jmp done)] d :=
      .jmp (List.mem_cons_of_mem _ hdone)
    exact .label_behind ((Leads.jnz List.mem_cons_self).append hleave)

/-! ### Expressions -/

theorem leads_load {pos : Position} {source : Operand} {s : Scratch}
    {em : Emission Scratch Register} (h : load pos source s = .ok em) :
    Leads exits d em.lines d := by
  obtain ⟨i, -, rfl⟩ := load_ok h
  exact leads_mov

theorem leads_loadName {pos : Position} {x : String} {s : Scratch}
    {em : Emission Scratch Register} (h : loadName table pos x s = .ok em) :
    Leads exits d em.lines d := by
  obtain ⟨symbol, i, -, -, rfl⟩ := loadName_ok h
  exact .steady (isSteady_nameCode i x symbol)

mutual

/-- An expression leaves the stack as deep as it was, along every path through its lines. -/
theorem lowerExpr_leads : ∀ (e : Expr) {s : Scratch} {em : Emission Scratch Register} {d : Word},
    lowerExpr table e s = .ok em → Leads [] d em.lines d
  | .number .., _, _, _, h | .character .., _, _, _, h | .bool .., _, _, _, h => by
    rw [lowerExpr] at h
    exact leads_load h
  | .text .., _, _, _, h => by
    obtain ⟨i, -, rfl⟩ := lowerExpr_text_ok h
    exact leads_mov
  | .name .., _, _, _, h => by
    rw [lowerExpr] at h
    exact leads_loadName h
  | .assign _ target value, _, _, _, h => by
    obtain ⟨place, hp⟩ := lowerExpr_assign_ok h
    cases place with
    | named at_ x =>
      obtain ⟨symbol, address, a, -, -, ha, rfl⟩ := lowerExpr_assign_named_ok hp h
      exact (lowerExpr_leads value ha).append leads_store
    | pointee at_ x =>
      obtain ⟨a, b, ha, hb, rfl⟩ := lowerExpr_assign_pointee_ok hp h
      exact (leads_loadName ha).append ((lowerExpr_leads value hb).append leads_store)
  | .logical _ op operands, s, _, d, h => by
    obtain ⟨i, c, -, hc, rfl⟩ := lowerExpr_logical_ok h
    have hbody : Leads [(flowLabel s.labels, d)] d
        ([.instruction (.mov (Register.general i) (.immediate (op.outcome true)))] ++ (c.lines ++
          [.instruction (.mov (Register.general i) (.immediate (op.outcome false)))])) d :=
      leads_mov.append ((lowerOperands_leads op operands hc).append leads_mov)
    simpa using hbody.label_behind
  | .binary _ op left right, _, _, _, h => by
    obtain ⟨a, b, ha, hb, rfl⟩ := lowerExpr_binary_ok h
    obtain ⟨i, hi⟩ := (lowerExpr_takes left ha).general
    obtain ⟨j, hj⟩ := (lowerExpr_takes right hb).general
    rw [hi, hj]
    exact (lowerExpr_leads left ha).append ((lowerExpr_leads right hb).append
      (.steady (isSteady_binaryCode i j op)))
  | .unary _ op operand, _, _, _, h => by
    obtain ⟨a, j, ha, -, rfl⟩ := lowerExpr_unary_ok h
    obtain ⟨i, hi⟩ := (lowerExpr_takes operand ha).general
    rw [hi]
    exact (lowerExpr_leads operand ha).append (.steady (isSteady_unaryCode i j op))
  | .call _ callee args, s, _, d, h => by
    obtain ⟨a, c, i, ha, hc, -, -, hlines⟩ := lowerExpr_call_lines h
    rw [hlines]
    -- the saved registers lie below the arguments, whatever is in between
    have hfront := (leads_pushes (d := d) s.pool.general_of_mem_live).append
      ((lowerExpr_leads callee ha).append (lowerArguments_leads args hc))
    exact hfront.append (leads_call.append (leads_callEnd s.pool args.length))

theorem lowerOperands_leads {done : String} : ∀ (op : LogicalOp) (es : List Expr) {s : Scratch}
    {em : Emission Scratch Unit} {d : Word}, lowerOperands table done op es s = .ok em →
    Leads [(done, d)] d em.lines d
  | _, [], _, _, _, h => by
    rw [lowerOperands_nil_ok h]
    exact .nil
  | op, e :: es, s, _, _, h => by
    obtain ⟨a, c, ha, hc, rfl⟩ := lowerOperands_cons_ok h
    exact (lowerExpr_leads e ha).weaken.append ((leads_operandTest op List.mem_cons_self).append
      (lowerOperands_leads op es hc))

theorem lowerArguments_leads : ∀ (es : List Expr) {s : Scratch} {em : Emission Scratch Unit}
    {d : Word}, lowerArguments table es s = .ok em →
    Leads [] d em.lines (d + argumentBytes es.length)
  | [], _, _, _, h => by
    rw [lowerArguments_nil_ok h]
    simpa [argumentBytes] using Leads.nil
  | e :: es, _, _, d, h => by
    obtain ⟨a, c, ha, hc, rfl⟩ := lowerArguments_cons_ok h
    obtain ⟨i, hi⟩ := (lowerExpr_takes e ha).general
    rw [hi, List.length_cons, add_argumentBytes_succ]
    exact (lowerExpr_leads e ha).append (leads_push.append (lowerArguments_leads es hc))

end

end Lowering

end WordC
