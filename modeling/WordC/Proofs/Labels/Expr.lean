import WordC.Proofs.Labels.Lines
import WordC.Proofs.Lowering.Expr
import WordC.Proofs.SymbolTable

/-!
# Labels, jumps and references of expressions

Three facts about the lines of an expression:

* `lowerExpr_labels`: they define the flow labels that were handed out, each of them once
  (`Defines`);
* `lowerExpr_jumps`: their jumps stay among them;
* `lowerExpr_references`: they refer to the labels of the string literals, each of them once and in
  order, and else to names that the symbol table has as variables of the file or functions
  (`RefersTo`).
-/

namespace WordC

/-! ### Flow labels -/

/-- How often a name is one of the flow labels from number `lo` up to `hi`. -/
def flowCount (lo hi : Nat) (x : String) : Nat :=
  ((List.range' lo (hi - lo)).map flowLabel).count x

@[simp] theorem flowCount_self (n : Nat) (x : String) : flowCount n n x = 0 := by
  simp [flowCount]

theorem flowCount_add {lo mid hi : Nat} (h : lo ≤ mid) (h' : mid ≤ hi) (x : String) :
    flowCount lo mid x + flowCount mid hi x = flowCount lo hi x := by
  have hsplit :
      List.range' lo (hi - lo) = List.range' lo (mid - lo) ++ List.range' mid (hi - mid) := by
    rw [show hi - lo = (mid - lo) + (hi - mid) by omega, ← List.range'_append_1,
      show lo + (mid - lo) = mid by omega]
  rw [flowCount, flowCount, flowCount, hsplit, List.map_append, List.count_append]

/-- The lines are code that defines the flow labels from number `lo` up to `hi` and the given names,
each of them once, and nothing else. -/
structure Defines (lo hi : Nat) (names : List String) (lines : List Line) : Prop where
  le : lo ≤ hi
  count : ∀ x, (labelsOf lines).count x = flowCount lo hi x + names.count x
  code : lines.all Line.isCode = true

namespace Defines

variable {lo mid hi : Nat} {names names' : List String} {lines lines' : List Line}

/-- Labels that are not numbered here. -/
theorem named (n : Nat) (h : labelsOf lines = names) (hcode : lines.all Line.isCode = true) :
    Defines n n names lines :=
  ⟨le_rfl, fun x => by simp [h], hcode⟩

theorem plain (n : Nat) (h : lines.all Line.isInstruction = true) : Defines n n [] lines := by
  obtain ⟨code, rfl⟩ := exists_map_instruction h
  exact .named n (labelsOf_map_instruction code) (by simp [Line.isCode])

theorem append (h : Defines lo mid names lines) (h' : Defines mid hi names' lines') :
    Defines lo hi (names ++ names') (lines ++ lines') := by
  refine ⟨h.le.trans h'.le, fun x => ?_, by rw [List.all_append, h.code, h'.code]; rfl⟩
  have hadd := flowCount_add h.le h'.le x
  rw [labelsOf_append, List.count_append, List.count_append, h.count, h'.count]
  omega

/-- Labels that were handed out in front of the lines stand among them, in any order. -/
theorem absorb {n : Nat} (h : Defines (lo + n) hi names lines)
    (hnames : names.Perm ((List.range' lo n).map flowLabel ++ names')) :
    Defines lo hi names' lines := by
  refine ⟨(Nat.le_add_right lo n).trans h.le, fun x => ?_, h.code⟩
  have hadd := flowCount_add (Nat.le_add_right lo n) h.le x
  have hcount : names.count x = flowCount lo (lo + n) x + names'.count x := by
    rw [hnames.count_eq, List.count_append, flowCount, Nat.add_sub_cancel_left]
  rw [h.count]
  omega

/-- Behind the lines stands a label that was handed out in front of them. -/
theorem close (h : Defines (lo + 1) hi names lines) (hlabels : labelsOf lines' = [flowLabel lo])
    (hcode : lines'.all Line.isCode = true) : Defines lo hi names (lines ++ lines') :=
  (h.append (.named hi hlabels hcode)).absorb List.perm_append_comm

end Defines

/-! ### References -/

/-- The lines refer to the labels of `n` string literals from number `lo` on, each of them once and
in order, and else to known names. -/
structure RefersTo (known : String → Prop) (lo n : Nat) (lines : List Line) : Prop where
  literals : (referencesOf lines).filter isGeneratedLabel = (List.range' lo n).map stringLabel
  names : ∀ x ∈ referencesOf lines, isGeneratedLabel x = false → known x

namespace RefersTo

variable {known known' : String → Prop} {lo n n' : Nat} {lines lines' : List Line}

theorem plain (lo : Nat) (h : referencesOf lines = []) : RefersTo known lo 0 lines :=
  ⟨by simp [h], by simp [h]⟩

theorem append (h : RefersTo known lo n lines) (h' : RefersTo known (lo + n) n' lines') :
    RefersTo known lo (n + n') (lines ++ lines') := by
  constructor
  · rw [referencesOf_append, List.filter_append, h.literals, h'.literals, ← List.map_append,
      List.range'_append_1]
  · intro x hx hg
    rw [referencesOf_append, List.mem_append] at hx
    exact hx.elim (fun hx => h.names x hx hg) (fun hx => h'.names x hx hg)

theorem prepend (h : RefersTo known lo 0 lines) (h' : RefersTo known lo n lines') :
    RefersTo known lo n (lines ++ lines') := by
  have hall : RefersTo known lo (0 + n) (lines ++ lines') := h.append h'
  rwa [Nat.zero_add] at hall

theorem mono (h : RefersTo known lo n lines) (hk : ∀ x, known x → known' x) :
    RefersTo known' lo n lines :=
  ⟨h.literals, fun x hx hg => hk x (h.names x hx hg)⟩

/-- References to nothing but known names that are not generated. -/
theorem of_names (lo : Nat) (h : ∀ x ∈ referencesOf lines, isGeneratedLabel x = false ∧ known x) :
    RefersTo known lo 0 lines := by
  constructor
  · rw [List.range'_zero, List.map_nil, List.filter_eq_nil_iff]
    intro x hx
    simp [(h x hx).1]
  · exact fun x hx _ => (h x hx).2

theorem text (known : String → Prop) (lo : Nat) (r : Register) :
    RefersTo known lo 1 [.instruction (.mov r (.label (stringLabel lo)))] := by
  constructor
  · simp [Instruction.references, Operand.reference?]
  · intro x hx hg
    simp only [referencesOf_instruction_cons, Instruction.references, Operand.reference?,
      Option.toList_none, Option.toList_some, referencesOf_nil, List.append_nil, List.nil_append,
      List.mem_singleton] at hx
    simp [hx] at hg

end RefersTo

namespace Lowering
open Emitter

variable {table : SymbolTable} {s : Scratch}

/-! ### Code without labels and jumps -/

theorem referencesOf_nameCode (r : Register) (x : String) (symbol : Symbol) :
    (nameCode r x symbol).flatMap Instruction.references =
      if symbol.isGlobal then [x] else [] := by
  cases symbol with
  | stack offset ty constant =>
    cases hty : ty.isArray <;> by_cases ho : offset < 0 <;>
      simp [nameCode, frameAddressCode, hty, ho, Instruction.references, Operand.reference?,
        Address.reference?, Symbol.isGlobal]
  | static ty constant =>
    cases hty : ty.isArray <;> simp [nameCode, hty, Instruction.references, Operand.reference?,
      Address.reference?, Symbol.isGlobal]
  | function arity defined =>
    simp [nameCode, Instruction.references, Operand.reference?, Symbol.isGlobal]

theorem jumpsOf_nameCode (r : Register) (x : String) (symbol : Symbol) :
    (nameCode r x symbol).filterMap Instruction.jump? = [] := by
  cases symbol with
  | stack offset ty constant =>
    cases hty : ty.isArray <;> by_cases ho : offset < 0 <;>
      simp [nameCode, frameAddressCode, hty, ho, Instruction.jump?]
  | static ty constant => cases hty : ty.isArray <;> simp [nameCode, hty, Instruction.jump?]
  | function arity defined => rfl

theorem references_storeAddress? {x : String} {symbol : Symbol} {address : Address}
    (h : storeAddress? x symbol = some address) :
    address.reference?.toList = if symbol.isGlobal then [x] else [] := by
  cases symbol with
  | stack offset ty constant =>
    cases hty : ty.isArray <;> simp [storeAddress?, hty] at h
    subst h
    rfl
  | static ty constant =>
    cases hty : ty.isArray <;> simp [storeAddress?, hty] at h
    subst h
    rfl
  | function arity defined => simp [storeAddress?] at h

theorem isPlain_binaryCode (a b : Register) (op : BinaryOp) :
    (binaryCode a b op).all Instruction.isPlain = true := by
  cases op <;> rfl

theorem isPlain_unaryCode (a b : Register) (op : UnaryOp) :
    (unaryCode a b op).all Instruction.isPlain = true := by
  cases op <;> rfl

theorem isPlain_push (registers : List Register) :
    (registers.map Instruction.push).all Instruction.isPlain = true := by
  simp [Instruction.isPlain, Instruction.jump?, Instruction.references]

theorem isPlain_callCode (saved : List Register) (target : Register) (count : Nat) :
    (callCode saved target count).all Instruction.isPlain = true := by
  by_cases hc : count = 0 <;>
    simp [callCode, dropArguments, hc, Instruction.isPlain, Instruction.jump?,
      Instruction.references, Operand.reference?]

/-! ### Labels -/

theorem labels_load {pos : Position} {source : Operand} {em : Emission Scratch Register}
    (h : load pos source s = .ok em) : Defines s.labels em.state.labels [] em.lines := by
  obtain ⟨i, -, rfl⟩ := load_ok h
  exact .plain _ rfl

theorem labels_loadName {pos : Position} {x : String} {em : Emission Scratch Register}
    (h : loadName table pos x s = .ok em) : Defines s.labels em.state.labels [] em.lines := by
  obtain ⟨symbol, i, -, -, rfl⟩ := loadName_ok h
  exact .plain _ (all_isInstruction_map _)

mutual

/-- The lines of an expression define the flow labels that it was given. -/
theorem lowerExpr_labels : ∀ (e : Expr) {s : Scratch} {em : Emission Scratch Register},
    lowerExpr table e s = .ok em → Defines s.labels em.state.labels [] em.lines
  | .number .., _, _, h => labels_load (by rwa [lowerExpr] at h)
  | .character .., _, _, h => labels_load (by rwa [lowerExpr] at h)
  | .bool .., _, _, h => labels_load (by rwa [lowerExpr] at h)
  | .text .., _, _, h => by
    obtain ⟨i, -, rfl⟩ := lowerExpr_text_ok h
    exact .plain _ rfl
  | .name .., _, _, h => labels_loadName (by rwa [lowerExpr] at h)
  | .assign _ target value, s, _, h => by
    obtain ⟨place, hp⟩ := lowerExpr_assign_ok h
    cases place with
    | named at_ x =>
      obtain ⟨_, address, a, -, -, ha, rfl⟩ := lowerExpr_assign_named_ok hp h
      exact (lowerExpr_labels value ha).append (.plain _ rfl)
    | pointee at_ x =>
      obtain ⟨a, b, ha, hb, rfl⟩ := lowerExpr_assign_pointee_ok hp h
      exact (labels_loadName ha).append ((lowerExpr_labels value hb).append (.plain _ rfl))
  | .logical _ op operands, s, _, h => by
    obtain ⟨i, c, -, hc, rfl⟩ := lowerExpr_logical_ok h
    have hoperands := lowerOperands_labels op operands hc
    exact (Defines.plain _ rfl).append (hoperands.close rfl rfl)
  | .binary _ op left right, _, _, h => by
    obtain ⟨a, b, ha, hb, rfl⟩ := lowerExpr_binary_ok h
    exact (lowerExpr_labels left ha).append
      ((lowerExpr_labels right hb).append (.plain _ (all_isInstruction_map _)))
  | .unary _ op operand, _, _, h => by
    obtain ⟨a, i, ha, -, rfl⟩ := lowerExpr_unary_ok h
    exact (lowerExpr_labels operand ha).append (.plain _ (all_isInstruction_map _))
  | .call _ callee args, s, _, h => by
    obtain ⟨a, c, i, ha, hc, -, rfl⟩ := lowerExpr_call_ok h
    exact (Defines.plain _ (all_isInstruction_map _)).append ((lowerExpr_labels callee ha).append
      ((lowerArguments_labels args hc).append (.plain _ (by simp [Line.isInstruction]))))

theorem lowerOperands_labels : ∀ (op : LogicalOp) (es : List Expr) {done : String} {s : Scratch}
    {em : Emission Scratch Unit}, lowerOperands table done op es s = .ok em →
    Defines s.labels em.state.labels [] em.lines
  | _, [], _, _, _, h => by
    rw [lowerOperands_nil_ok h]
    exact .plain _ rfl
  | .or, e :: es, _, _, _, h => by
    obtain ⟨a, c, ha, hc, rfl⟩ := lowerOperands_cons_ok h
    exact (lowerExpr_labels e ha).append
      ((Defines.plain _ rfl).append (lowerOperands_labels .or es hc))
  | .and, e :: es, done, s, _, h => by
    obtain ⟨a, c, ha, hc, rfl⟩ := lowerOperands_cons_ok h
    have htest : labelsOf (operandTest a.value done (flowLabel s.labels) .and) =
        [flowLabel s.labels] := rfl
    have hrest := lowerOperands_labels .and es hc
    -- the label behind the operand is handed out in front of it
    have hall := ((lowerExpr_labels e ha).close htest rfl).append hrest
    rwa [List.append_assoc] at hall

theorem lowerArguments_labels : ∀ (es : List Expr) {s : Scratch} {em : Emission Scratch Unit},
    lowerArguments table es s = .ok em → Defines s.labels em.state.labels [] em.lines
  | [], _, _, h => by
    rw [lowerArguments_nil_ok h]
    exact .plain _ rfl
  | e :: es, _, _, h => by
    obtain ⟨a, c, ha, hc, rfl⟩ := lowerArguments_cons_ok h
    exact (lowerExpr_labels e ha).append
      ((Defines.plain _ rfl).append (lowerArguments_labels es hc))

end

/-! ### Jumps -/

theorem jumps_loadName {pos : Position} {x : String} {em : Emission Scratch Register}
    (h : loadName table pos x s = .ok em) : jumpsOf em.lines = [] := by
  obtain ⟨symbol, i, -, -, rfl⟩ := loadName_ok h
  rw [jumpsOf_map_instruction, jumpsOf_nameCode]

theorem jumps_load {pos : Position} {source : Operand} {em : Emission Scratch Register}
    (h : load pos source s = .ok em) : jumpsOf em.lines = [] := by
  obtain ⟨i, -, rfl⟩ := load_ok h
  rfl

mutual

/-- The jumps of an expression stay among its lines. -/
theorem lowerExpr_jumps : ∀ (e : Expr) {s : Scratch} {em : Emission Scratch Register},
    lowerExpr table e s = .ok em → JumpsInside [] em.lines
  | .number .., _, _, h => .plain (jumps_load (by rwa [lowerExpr] at h))
  | .character .., _, _, h => .plain (jumps_load (by rwa [lowerExpr] at h))
  | .bool .., _, _, h => .plain (jumps_load (by rwa [lowerExpr] at h))
  | .text .., _, _, h => by
    obtain ⟨i, -, rfl⟩ := lowerExpr_text_ok h
    exact .plain rfl
  | .name .., _, _, h => .plain (jumps_loadName (by rwa [lowerExpr] at h))
  | .assign _ target value, s, _, h => by
    obtain ⟨place, hp⟩ := lowerExpr_assign_ok h
    cases place with
    | named at_ x =>
      obtain ⟨_, address, a, -, -, ha, rfl⟩ := lowerExpr_assign_named_ok hp h
      exact (lowerExpr_jumps value ha).append (.plain rfl)
    | pointee at_ x =>
      obtain ⟨a, b, ha, hb, rfl⟩ := lowerExpr_assign_pointee_ok hp h
      exact (JumpsInside.plain (jumps_loadName ha)).append
        ((lowerExpr_jumps value hb).append (.plain rfl))
  | .logical _ op operands, s, _, h => by
    obtain ⟨i, c, -, hc, rfl⟩ := lowerExpr_logical_ok h
    -- the operands leave for the label at the end
    refine ((lowerOperands_jumps op operands hc).append (.plain rfl)).close ?_
    simp
  | .binary _ op left right, _, _, h => by
    obtain ⟨a, b, ha, hb, rfl⟩ := lowerExpr_binary_ok h
    exact (lowerExpr_jumps left ha).append ((lowerExpr_jumps right hb).append
      (.plain (jumpsOf_of_isPlain (isPlain_binaryCode _ _ op))))
  | .unary _ op operand, _, _, h => by
    obtain ⟨a, i, ha, -, rfl⟩ := lowerExpr_unary_ok h
    exact (lowerExpr_jumps operand ha).append
      (.plain (jumpsOf_of_isPlain (isPlain_unaryCode _ _ op)))
  | .call _ callee args, s, _, h => by
    obtain ⟨a, c, i, ha, hc, -, rfl⟩ := lowerExpr_call_ok h
    have hcall : JumpsInside [] ((callCode s.pool.live a.value args.length).map .instruction ++
        [.instruction (.mov (Register.general i) Register.rv)]) :=
      (JumpsInside.plain (jumpsOf_of_isPlain (isPlain_callCode _ _ _))).append (.plain rfl)
    exact (JumpsInside.plain (jumpsOf_of_isPlain (isPlain_push _))).append
      ((lowerExpr_jumps callee ha).append ((lowerArguments_jumps args hc).append hcall))

theorem lowerOperands_jumps : ∀ (op : LogicalOp) (es : List Expr) {done : String} {s : Scratch}
    {em : Emission Scratch Unit}, lowerOperands table done op es s = .ok em →
    JumpsInside [done] em.lines
  | _, [], _, _, _, h => by
    rw [lowerOperands_nil_ok h]
    exact .plain rfl
  | op, e :: es, done, s, _, h => by
    obtain ⟨a, c, ha, hc, rfl⟩ := lowerOperands_cons_ok h
    have htest : JumpsInside [done] (operandTest a.value done (flowLabel s.labels) op) := by
      cases op <;> simp [JumpsInside, operandTest, Instruction.jump?]
    exact (lowerExpr_jumps e ha).weaken.append (htest.append (lowerOperands_jumps op es hc))

theorem lowerArguments_jumps : ∀ (es : List Expr) {s : Scratch} {em : Emission Scratch Unit},
    lowerArguments table es s = .ok em → JumpsInside [] em.lines
  | [], _, _, h => by
    rw [lowerArguments_nil_ok h]
    exact .plain rfl
  | e :: es, _, _, h => by
    obtain ⟨a, c, ha, hc, rfl⟩ := lowerArguments_cons_ok h
    exact (lowerExpr_jumps e ha).append
      ((JumpsInside.plain rfl).append (lowerArguments_jumps es hc))

end

/-! ### References -/

theorem references_load {pos : Position} {source : Operand} {em : Emission Scratch Register}
    (hsource : source.reference? = none) (h : load pos source s = .ok em) (lo : Nat) :
    RefersTo table.IsGlobalName lo 0 em.lines := by
  obtain ⟨i, -, rfl⟩ := load_ok h
  refine .plain lo ?_
  simp only [referencesOf_instruction_cons, Instruction.references, hsource]
  rfl

section References

variable (hgen : ∀ x, table.IsGlobalName x → isGeneratedLabel x = false)

include hgen

theorem references_loadName {pos : Position} {x : String} {em : Emission Scratch Register}
    (h : loadName table pos x s = .ok em) (lo : Nat) :
    RefersTo table.IsGlobalName lo 0 em.lines := by
  obtain ⟨symbol, i, hx, -, rfl⟩ := loadName_ok h
  refine .of_names lo fun y hy => ?_
  rw [referencesOf_map_instruction, referencesOf_nameCode] at hy
  cases hg : symbol.isGlobal with
  | false => simp [hg] at hy
  | true =>
    rw [hg, if_pos rfl, List.mem_singleton] at hy
    subst hy
    exact ⟨hgen y ⟨symbol, hx, hg⟩, symbol, hx, hg⟩

theorem references_store {x : String} {symbol : Symbol} {address : Address}
    (hx : table.lookup x = some symbol) (h : storeAddress? x symbol = some address) (r : Register)
    (lo : Nat) : RefersTo table.IsGlobalName lo 0 [.instruction (.mov address r)] := by
  refine .of_names lo fun y hy => ?_
  simp only [referencesOf_instruction_cons, Instruction.references, Operand.reference?,
    references_storeAddress? h, Option.toList_none, referencesOf_nil, List.append_nil] at hy
  cases hg : symbol.isGlobal with
  | false => simp [hg] at hy
  | true =>
    rw [hg, if_pos rfl, List.mem_singleton] at hy
    subst hy
    exact ⟨hgen y ⟨symbol, hx, hg⟩, symbol, hx, hg⟩

end References

mutual

/-- An expression refers to its string literals, and else to variables of the file and functions. -/
theorem lowerExpr_references
    (hgen : ∀ x, table.IsGlobalName x → isGeneratedLabel x = false) :
    ∀ (e : Expr) {s : Scratch} {em : Emission Scratch Register},
    lowerExpr table e s = .ok em →
    RefersTo table.IsGlobalName s.strings.length e.literals.length em.lines
  | .number .., _, _, h => references_load rfl (by rwa [lowerExpr] at h) _
  | .character .., _, _, h => references_load rfl (by rwa [lowerExpr] at h) _
  | .bool .., _, _, h => references_load rfl (by rwa [lowerExpr] at h) _
  | .text .., _, _, h => by
    obtain ⟨i, -, rfl⟩ := lowerExpr_text_ok h
    exact .text _ _ _
  | .name .., _, _, h => references_loadName hgen (by rwa [lowerExpr] at h) _
  | .assign _ target value, s, _, h => by
    obtain ⟨place, hp⟩ := lowerExpr_assign_ok h
    rw [Expr.literals, Expr.literals_of_place? hp, List.nil_append]
    cases place with
    | named at_ x =>
      obtain ⟨symbol, address, a, hx, haddr, ha, rfl⟩ := lowerExpr_assign_named_ok hp h
      exact (lowerExpr_references hgen value ha).append (references_store hgen hx haddr _ _)
    | pointee at_ x =>
      obtain ⟨a, b, ha, hb, rfl⟩ := lowerExpr_assign_pointee_ok hp h
      have hvalue := lowerExpr_references hgen value hb
      rw [show a.state.strings = s.strings by
        obtain ⟨_, _, -, -, rfl⟩ := loadName_ok ha
        rfl] at hvalue
      exact (references_loadName hgen ha s.strings.length).prepend (hvalue.append (.plain _ rfl))
  | .logical _ op operands, s, _, h => by
    obtain ⟨i, c, -, hc, rfl⟩ := lowerExpr_logical_ok h
    have hoperands := lowerOperands_references hgen op operands hc
    exact (RefersTo.plain _ rfl).prepend (hoperands.append (.plain _ rfl))
  | .binary _ op left right, s, _, h => by
    obtain ⟨a, b, ha, hb, rfl⟩ := lowerExpr_binary_ok h
    have hright := lowerExpr_references hgen right hb
    rw [lowerExpr_strings left ha, List.length_append] at hright
    rw [Expr.literals, List.length_append]
    exact (lowerExpr_references hgen left ha).append
      (hright.append (.plain _ (referencesOf_of_isPlain (isPlain_binaryCode _ _ op))))
  | .unary _ op operand, s, _, h => by
    obtain ⟨a, i, ha, -, rfl⟩ := lowerExpr_unary_ok h
    exact (lowerExpr_references hgen operand ha).append
      (.plain _ (referencesOf_of_isPlain (isPlain_unaryCode _ _ op)))
  | .call _ callee args, s, _, h => by
    obtain ⟨a, c, i, ha, hc, -, rfl⟩ := lowerExpr_call_ok h
    have hargs := lowerArguments_references hgen args hc
    rw [lowerExpr_strings callee ha, List.length_append] at hargs
    have hcall : referencesOf ((callCode s.pool.live a.value args.length).map .instruction ++
        [.instruction (.mov (Register.general i) Register.rv)]) = [] := by
      rw [referencesOf_append, referencesOf_of_isPlain (isPlain_callCode _ _ _)]
      rfl
    rw [Expr.literals, List.length_append]
    exact (RefersTo.plain _ (referencesOf_of_isPlain (isPlain_push _))).prepend
      ((lowerExpr_references hgen callee ha).append (hargs.append (.plain _ hcall)))

theorem lowerOperands_references
    (hgen : ∀ x, table.IsGlobalName x → isGeneratedLabel x = false) :
    ∀ (op : LogicalOp) (es : List Expr) {done : String} {s : Scratch} {em : Emission Scratch Unit},
    lowerOperands table done op es s = .ok em →
    RefersTo table.IsGlobalName s.strings.length (Expr.literalsOfAll es).length em.lines
  | _, [], _, _, _, h => by
    rw [lowerOperands_nil_ok h]
    exact .plain _ rfl
  | op, e :: es, done, s, _, h => by
    obtain ⟨a, c, ha, hc, rfl⟩ := lowerOperands_cons_ok h
    have hrest := lowerOperands_references hgen op es hc
    rw [lowerExpr_strings e ha, List.length_append] at hrest
    have htest : referencesOf (operandTest a.value done (flowLabel s.labels) op) = [] := by
      cases op <;> rfl
    rw [Expr.literalsOfAll, List.length_append]
    exact (lowerExpr_references hgen e ha).append ((RefersTo.plain _ htest).prepend hrest)

theorem lowerArguments_references
    (hgen : ∀ x, table.IsGlobalName x → isGeneratedLabel x = false) :
    ∀ (es : List Expr) {s : Scratch} {em : Emission Scratch Unit},
    lowerArguments table es s = .ok em →
    RefersTo table.IsGlobalName s.strings.length (Expr.literalsOfAll es).length em.lines
  | [], _, _, h => by
    rw [lowerArguments_nil_ok h]
    exact .plain _ rfl
  | e :: es, s, _, h => by
    obtain ⟨a, c, ha, hc, rfl⟩ := lowerArguments_cons_ok h
    have hrest := lowerArguments_references hgen es hc
    rw [lowerExpr_strings e ha, List.length_append] at hrest
    rw [Expr.literalsOfAll, List.length_append]
    exact (lowerExpr_references hgen e ha).append ((RefersTo.plain _ rfl).prepend hrest)

end

end Lowering

end WordC
