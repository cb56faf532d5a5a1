import WordC.Proofs.Registers.Lowering

/-!
# Registers at every moment of lowering

What happens in lowering is sound: `lowerExpr_sound` from any pool, `lowerItems_sound` from the
empty one. A register that an instruction reads holds the result of a part that was evaluated before
and has not been given back, so it is enough to follow the registers that are taken
(`RegisterPool.Takes`).
-/

namespace WordC.Lowering
open Emitter
open RegisterPool (isReadable_of_mem_live)

/-! ### Single steps -/

variable {p q : RegisterPool} {r : Register}

theorem alloc_sound (pos : Position) :
    Sound Scratch.pool p (alloc pos) fun r q => p.Takes r q := by
  refine .silent (.change _) ?_
  rintro s em rfl h
  obtain ⟨i, hi, rfl⟩ := alloc_eq_ok_iff.1 h
  exact RegisterPool.takes_of_free? hi

theorem release_sound (r : Register) :
    Sound Scratch.pool p (release r) fun _ q => q = p.free r := by
  refine .silent (.change _) ?_
  rintro s em rfl h
  rw [release_eq_ok_iff.1 h]

/-- Steps that emit nothing and leave the pool alone. -/
theorem idle_sound {σ α : Type} {pool : σ → RegisterPool} {x : Emitter σ α} (hx : Silent x)
    (h : ∀ s em, x s = .ok em → pool em.state = pool s) : Sound pool p x fun _ q => q = p :=
  .silent hx fun s em hs hem => hs ▸ h s em hem

theorem resolve_sound {σ : Type} {pool : σ → RegisterPool} (table : SymbolTable) (pos : Position)
    (x : String) : Sound pool p (resolve table pos x) fun _ q => q = p := by
  refine idle_sound (resolve_silent table x) fun s em h => ?_
  obtain ⟨symbol, -, rfl⟩ := resolve_eq_ok_iff.1 h
  rfl

/-- Giving back the register that was taken last. -/
theorem release_taken_sound (h : p.Takes r q) :
    Sound Scratch.pool q (release r) fun _ q' => q' = p :=
  (release_sound r).mono fun _ _ hq => hq.trans h.free_eq

theorem liveRegisters_sound :
    Sound Scratch.pool p liveRegisters fun saved q => saved = p.live ∧ q = p := by
  refine .silent (.change _) ?_
  rintro s em rfl h
  cases h
  exact ⟨rfl, rfl⟩

theorem reads_of_storeAddress? {x : String} {symbol : Symbol} {address : Address}
    (h : storeAddress? x symbol = some address) : ∀ r ∈ address.reads, r = .sf := by
  cases symbol with
  | stack offset ty constant =>
    rw [storeAddress?, Option.ite_none_left_eq_some] at h
    obtain ⟨-, ⟨⟩⟩ := h
    simp [Address.reads]
  | static ty constant =>
    rw [storeAddress?, Option.ite_none_left_eq_some] at h
    obtain ⟨-, ⟨⟩⟩ := h
    simp [Address.reads]
  | function params defined => cases h

theorem store_sound {σ : Type} {pool : σ → RegisterPool} (hr : r ∈ p.live) (pos : Position)
    (x : String) (symbol : Symbol) :
    Sound pool p (store pos x symbol r) fun _ q => q = p := by
  unfold store
  cases haddress : storeAddress? x symbol with
  | none => exact .fail _ _
  | some address =>
    refine .emit fun r' hr' => ?_
    rcases List.mem_append.1 hr' with hr' | hr'
    · rw [reads_of_storeAddress? haddress r' hr']
      exact RegisterPool.isReadable_sf
    · exact isReadable_of_mem_live (List.mem_singleton.1 hr' ▸ hr)

theorem newLabel_sound : Sound Scratch.pool p newLabel fun _ q => q = p := by
  refine idle_sound (.change _) fun s em h => ?_
  rw [newLabel_eq_ok_iff.1 h]

/-! ### What the code of a node reads -/

theorem reads_dropArguments (count : Nat) : ∀ i ∈ dropArguments count, ∀ r ∈ i.reads, r = .sp := by
  unfold dropArguments
  split <;> simp [Instruction.reads, Operand.reads]

theorem reads_frameAddressCode (r : Register) (offset : Int16) :
    ∀ i ∈ frameAddressCode r offset, ∀ r' ∈ i.reads, r' = .sf ∨ r' = r := by
  unfold frameAddressCode
  split <;> simp [Instruction.reads, Operand.reads, Operand.targetReads]

theorem reads_nameCode (r : Register) (x : String) (symbol : Symbol) :
    ∀ i ∈ nameCode r x symbol, ∀ r' ∈ i.reads, r' = .sf ∨ r' = r := by
  cases symbol with
  | stack offset ty constant =>
    rw [nameCode]
    split
    · exact reads_frameAddressCode r offset
    · simp [Instruction.reads, Operand.reads, Operand.targetReads, Address.reads]
  | static ty constant =>
    rw [nameCode]
    split <;> simp [Instruction.reads, Operand.reads, Operand.targetReads, Address.reads]
  | function params defined =>
    simp [nameCode, Instruction.reads, Operand.reads, Operand.targetReads]

theorem reads_unaryCode (source r : Register) (op : UnaryOp) :
    ∀ i ∈ unaryCode source r op, ∀ r' ∈ i.reads, r' = source ∨ r' = r := by
  cases op <;>
    simp [unaryCode, negateCode, Instruction.reads, Operand.reads, Operand.targetReads,
      Address.reads]

theorem reads_binaryCode (left right : Register) (op : BinaryOp) :
    ∀ i ∈ binaryCode left right op, ∀ r' ∈ i.reads, r' = left ∨ r' = right := by
  cases op <;>
    simp [binaryCode, compareCode, negateCode, Instruction.reads, Operand.reads,
      Operand.targetReads]

theorem load_sound (pos : Position) {source : Operand} (h : ∀ r ∈ source.reads, r = .rv) :
    Sound Scratch.pool p (load pos source) fun r q => p.Takes r q := by
  refine .bind (alloc_sound pos) fun r q hr => ?_
  refine .andThen (.emit fun r' hr' => ?_) fun _ => .pure hr
  rw [h r' hr']
  exact RegisterPool.isReadable_rv

theorem loadName_sound (table : SymbolTable) (pos : Position) (x : String) :
    Sound Scratch.pool p (loadName table pos x) fun r q => p.Takes r q := by
  refine .andThen (resolve_sound table pos x) fun symbol => ?_
  refine .bind (alloc_sound pos) fun r q hr => .andThen (.emitCode fun i hi r' hr' => ?_) fun _ =>
    .pure hr
  rcases reads_nameCode r x symbol i hi r' hr' with rfl | rfl
  · exact RegisterPool.isReadable_sf
  · exact isReadable_of_mem_live hr.mem_live

theorem applyUnary_sound (h : r ∈ p.live) (pos : Position) (op : UnaryOp) :
    Sound Scratch.pool p (applyUnary pos op r) fun _ _ => True := by
  rw [applyUnary_eq]
  refine .bind (alloc_sound pos) fun r' q hr' => .andThen (.emitCode fun i hi r'' hr'' => ?_)
    fun _ => .bind (release_sound _) fun _ _ _ => .pure True.intro
  rcases reads_unaryCode r r' op i hi r'' hr'' with rfl | rfl
  · exact isReadable_of_mem_live (hr'.live_subset h)
  · exact isReadable_of_mem_live hr'.mem_live

/-- Which register an expression takes is known from its runs. -/
theorem takes_of_sound {table : SymbolTable} {e : Expr}
    (h : Sound Scratch.pool p (lowerExpr table e) fun _ _ => True) :
    Sound Scratch.pool p (lowerExpr table e) fun r q => p.Takes r q :=
  h.of_run fun _ _ hs hem => hs ▸ lowerExpr_takes e hem

mutual

/-- Lowering an expression is sound from any pool, and takes one register. -/
theorem lowerExpr_sound {table : SymbolTable} : ∀ (e : Expr) {p : RegisterPool},
    Sound Scratch.pool p (lowerExpr table e) fun r q => p.Takes r q
  | .number .., _ | .character .., _ | .bool .., _ => by
    rw [lowerExpr]
    exact load_sound _ (by simp [Operand.reads])
  | .text .., _ => by
    rw [lowerExpr]
    refine .andThen (idle_sound (.change _) fun s em h => ?_) fun _ =>
      load_sound _ (by simp [Operand.reads])
    cases h
    rfl
  | .name .., _ => by
    rw [lowerExpr]
    exact loadName_sound _ _ _
  | .assign _ target value, _ => by
    apply takes_of_sound
    rw [lowerExpr]
    cases target.place? with
    | none => exact .fail _ _
    | some place =>
      cases place with
      | named pos x =>
        refine .andThen (resolve_sound table pos x) fun symbol => .ite (.fail _ _) ?_
        refine .bind (lowerExpr_sound value) fun r q hr => ?_
        exact .andThen (store_sound hr.mem_live pos x symbol) fun _ => .pure True.intro
      | pointee pos x =>
        refine .bind (loadName_sound table pos x) fun address q haddress => ?_
        refine .bind (lowerExpr_sound value) fun r q' hr => .andThen (.emit ?_) fun _ =>
          .bind (release_sound _) fun _ _ _ => .pure True.intro
        have hreads := isReadable_of_mem_live (hr.live_subset haddress.mem_live)
        simp [Instruction.reads, Operand.reads, Operand.targetReads, Address.reads, hreads,
          isReadable_of_mem_live hr.mem_live]
  | .logical pos op operands, _ => by
    rw [lowerExpr_logical]
    refine .andThen newLabel_sound fun done => .bind (alloc_sound pos) fun r q hr => ?_
    refine .andThen (.emit (by simp [Instruction.reads, Operand.reads, Operand.targetReads]))
      fun _ => .andThen (lowerOperands_sound op operands) fun _ => ?_
    refine .andThen (.emit (by simp [Instruction.reads, Operand.reads, Operand.targetReads]))
      fun _ => .andThen (.emitLabel done) fun _ => .pure hr
  | .binary _ op left right, _ => by
    apply takes_of_sound
    rw [lowerExpr]
    refine .bind (lowerExpr_sound left) fun a q ha => .bind (lowerExpr_sound right) fun b q' hb =>
      .andThen (.emitCode fun i hi r hr => ?_) fun _ =>
        .bind (release_sound b) fun _ _ _ => .pure True.intro
    rcases reads_binaryCode a b op i hi r hr with rfl | rfl
    · exact isReadable_of_mem_live (hb.live_subset ha.mem_live)
    · exact isReadable_of_mem_live hb.mem_live
  | .unary pos op operand, _ => by
    apply takes_of_sound
    rw [lowerExpr]
    exact .bind (lowerExpr_sound operand) fun source q h => applyUnary_sound h.mem_live pos op
  | .call pos callee args, p => by
    rw [lowerExpr]
    refine .bind liveRegisters_sound fun saved q ⟨hsaved, hq⟩ => ?_
    rw [hsaved, hq]
    have hpush : ∀ i ∈ p.live.map Instruction.push, ∀ r ∈ i.reads, p.IsReadable r := by
      simpa [Instruction.reads] using fun _ => isReadable_of_mem_live
    have hpop : ∀ i ∈ p.live.reverse.map Instruction.pop, ∀ r ∈ i.reads, p.IsReadable r := by
      simp [Instruction.reads]
    -- the pool is the one in front of the call again when its registers are popped
    refine .andThen (.emitCode hpush) fun _ => ?_
    refine .bind (lowerExpr_sound callee) fun target q htarget => ?_
    have hcall := isReadable_of_mem_live htarget.mem_live
    refine .andThen (lowerArguments_sound args) fun _ =>
      .andThen (.emit (by simp [Instruction.reads, hcall])) fun _ => ?_
    refine .andThen (release_taken_sound htarget) fun _ => ?_
    refine .andThen (.emitCode fun i hi r hr => ?_) fun _ => .andThen (.emitCode hpop) fun _ =>
      load_sound pos (by simp [Operand.reads])
    rw [reads_dropArguments _ i hi r hr]
    exact RegisterPool.isReadable_sp

theorem lowerOperands_sound {table : SymbolTable} {done : String} : ∀ (op : LogicalOp)
    (es : List Expr) {p : RegisterPool},
    Sound Scratch.pool p (lowerOperands table done op es) fun _ q => q = p
  | .or, [], _ => by
    rw [lowerOperands, lowerOr]
    exact .pure rfl
  | .and, [], _ => by
    rw [lowerOperands, lowerAnd]
    exact .pure rfl
  | .or, e :: es, _ => by
    rw [lowerOperands, lowerOr]
    refine .bind (lowerExpr_sound e) fun r q hr => .andThen (.emit ?_) fun _ =>
      .andThen (release_taken_sound hr) fun _ => lowerOperands_sound .or es
    simp [Instruction.reads, isReadable_of_mem_live hr.mem_live]
  | .and, e :: es, _ => by
    rw [lowerOperands, lowerAnd]
    refine .andThen newLabel_sound fun ok => .bind (lowerExpr_sound e) fun r q hr => ?_
    have hjnz := isReadable_of_mem_live hr.mem_live
    refine .andThen (.emit (by simp [Instruction.reads, hjnz])) fun _ =>
      .andThen (release_taken_sound hr) fun _ => ?_
    refine .andThen (.emit (by simp [Instruction.reads])) fun _ => ?_
    exact .andThen (.emitLabel ok) fun _ => lowerOperands_sound .and es

theorem lowerArguments_sound {table : SymbolTable} : ∀ (es : List Expr) {p : RegisterPool},
    Sound Scratch.pool p (lowerArguments table es) fun _ q => q = p
  | [], _ => by
    rw [lowerArguments]
    exact .pure rfl
  | e :: es, _ => by
    rw [lowerArguments]
    refine .bind (lowerExpr_sound e) fun r q hr => .andThen (.emit ?_) fun _ =>
      .andThen (release_taken_sound hr) fun _ => lowerArguments_sound es
    simp [Instruction.reads, isReadable_of_mem_live hr.mem_live]

end

/-! ### Statements leave no register in use -/

theorem get_sound {σ : Type} {pool : σ → RegisterPool} :
    Sound pool p Emitter.get fun _ q => q = p := by
  refine idle_sound (.change _) fun s em h => ?_
  cases h
  rfl

theorem onScratch_release_sound (h : p.Takes r q) :
    Sound Session.pool q (onScratch (release r)) fun _ q' => q' = p :=
  .onScratch (release_taken_sound h)

theorem onScratch_newLabel_sound : Sound Session.pool p (onScratch newLabel) fun _ q => q = p :=
  .onScratch newLabel_sound

theorem onSymbols_sound (f : SymbolTable → SymbolTable) :
    Sound Session.pool p (onSymbols f) fun _ q => q = p := by
  refine idle_sound (.change _) fun s em h => ?_
  cases h
  rfl

theorem declare_sound (pos : Position) (x : String) (symbol : Symbol) :
    Sound Session.pool p (declare pos x symbol) fun _ q => q = p := by
  refine idle_sound (declare_silent x symbol) fun s em h => ?_
  obtain ⟨table, -, rfl⟩ := declare_eq_ok_iff.1 h
  rfl

theorem place_sound (pos : Position) (ty : Ty) (constant : Bool) :
    Sound Session.pool p (place pos ty constant) fun _ q => q = p := by
  refine idle_sound (place_silent ty constant) fun s em h => ?_
  obtain ⟨-, hscratch, -⟩ := place_lines h
  exact congrArg Scratch.pool hscratch

theorem declareFunction_sound (pos : Position) (head : Signature) (defined : Bool) :
    Sound Session.pool p (declareFunction pos head defined) fun _ q => q = p := by
  refine idle_sound (declareFunction_silent head defined) fun s em h => ?_
  obtain ⟨-, table, -, rfl⟩ := declareFunction_ok h
  rfl

theorem enterFunction_sound (pos : Position) (head : Signature) :
    Sound Session.pool p (enterFunction pos head) fun _ q => q = p := by
  refine idle_sound (enterFunction_silent head) fun s em h => ?_
  obtain ⟨-, hscratch, -⟩ := declareParams_ok (enterFunction_ok h)
  exact congrArg Scratch.pool hscratch

/-- The reservation that is given when a function is left moves the stack pointer only. -/
theorem leaveFunction_sound (pos : Position) :
    Sound Session.pool p (leaveFunction pos)
      fun reserve q => (∀ i ∈ reserve, ∀ r ∈ i.reads, r = .sp) ∧ q = p := by
  refine .silent leaveFunction_silent ?_
  rintro s em rfl h
  obtain ⟨hvalue, -, hstate⟩ := leaveFunction_ok h
  refine ⟨?_, by rw [hstate]; rfl⟩
  rcases hvalue with hvalue | ⟨bytes, hvalue⟩
  · simp [hvalue]
  · simp [hvalue, reservation, Instruction.reads, Operand.reads]

theorem evaluate_sound (e : Expr) : Sound Session.pool p (evaluate e) fun r q => p.Takes r q :=
  .andThen get_sound fun _ => .onScratch (lowerExpr_sound e)

theorem evaluateOnly_sound (e : Expr) : Sound Session.pool p (evaluateOnly e) fun _ q => q = p :=
  .bind (evaluate_sound e) fun _ _ hr => onScratch_release_sound hr

theorem evaluateOption_sound (e : Option Expr) :
    Sound Session.pool p (evaluateOption e) fun _ q => q = p := by
  cases e with
  | none => exact .pure rfl
  | some e => exact evaluateOnly_sound e

theorem lowerVariable_sound (pos : Position) (decl : Variable) :
    Sound Session.pool p (lowerVariable pos decl) fun _ q => q = p := by
  unfold lowerVariable
  cases decl.init with
  | none => exact .andThen (place_sound pos _ _) fun _ => declare_sound pos _ _
  | some init =>
    refine .bind (evaluate_sound init) fun r q hr => ?_
    refine .andThen (place_sound pos _ _) fun _ => .andThen (declare_sound pos _ _) fun _ => ?_
    exact .andThen (store_sound hr.mem_live pos _ _) fun _ => onScratch_release_sound hr

theorem branch_sound (cond : Expr) (ok otherwise : String) :
    Sound Session.pool p (branch cond ok otherwise) fun _ q => q = p := by
  refine .bind (evaluate_sound cond) fun r q hr => ?_
  have hjnz := isReadable_of_mem_live hr.mem_live
  refine .andThen (.emit (by simp [Instruction.reads, hjnz])) fun _ => ?_
  refine .andThen (onScratch_release_sound hr) fun _ => ?_
  exact .andThen (.emit (by simp [Instruction.reads])) fun _ => .emitLabel ok

theorem epilogue_sound : Sound Session.pool p (emitCode epilogue) fun _ q => q = p :=
  .emitCode (by simp [epilogue, Instruction.reads, Operand.reads, Operand.targetReads])

theorem lowerReturn_sound (pos : Position) (value : Option Expr) :
    Sound Session.pool p (lowerReturn pos value) fun _ q => q = p := by
  refine .andThen get_sound fun session => .ite (.fail _ _) ?_
  cases value with
  | none => exact epilogue_sound
  | some e =>
    refine .bind (evaluate_sound e) fun r q hr => .andThen (.emit ?_) fun _ =>
      .andThen (onScratch_release_sound hr) fun _ => epilogue_sound
    simp [Instruction.reads, Operand.reads, Operand.targetReads,
      isReadable_of_mem_live hr.mem_live]

section Nested

variable {x : Emitter Session Unit}

theorem lowerFunction_sound (h : Sound Session.pool p x fun _ q => q = p) (pos : Position)
    (head : Signature) : Sound Session.pool p (lowerFunction pos head x) fun _ q => q = p := by
  refine .andThen (declareFunction_sound pos head true) fun _ => ?_
  refine .andThen (.behind (.andThen (enterFunction_sound pos head) fun _ => h) ?_) fun _ =>
    epilogue_sound
  refine .bind (leaveFunction_sound pos) fun reserve q ⟨hreserve, hq⟩ => ?_
  subst hq
  refine .andThen (.emitLabel head.name) fun _ => .emitCode ?_
  rw [List.forall_mem_append]
  refine ⟨by simp [prologue, Instruction.reads, Operand.reads, Operand.targetReads], ?_⟩
  intro i hi r hr
  rw [hreserve i hi r hr]
  exact RegisterPool.isReadable_sp

theorem inScope_sound (h : Sound Session.pool p x fun _ q => q = p) :
    Sound Session.pool p (inScope x) fun _ q => q = p := by
  refine .andThen get_sound fun session => .ite ?_ h
  exact .andThen (onSymbols_sound _) fun _ => .andThen h fun _ => onSymbols_sound _

theorem lowerLoop_sound (h : Sound Session.pool p x fun _ q => q = p) (cond step : Option Expr) :
    Sound Session.pool p (lowerLoop cond step x) fun _ q => q = p := by
  have htest (done : String) : Sound Session.pool p (loopTest done cond) fun _ q => q = p := by
    cases cond with
    | none => exact .pure rfl
    | some cond => exact .andThen onScratch_newLabel_sound fun ok => branch_sound cond ok done
  refine .andThen onScratch_newLabel_sound fun top => ?_
  refine .andThen onScratch_newLabel_sound fun done => ?_
  refine .andThen (.emitLabel top) fun _ => .andThen (htest done) fun _ => .andThen h fun _ => ?_
  refine .andThen (evaluateOption_sound step) fun _ => ?_
  exact .andThen (.emit (by simp [Instruction.reads])) fun _ => .emitLabel done

end Nested

theorem lowerItems_sound_of {items : List Stmt}
    (h : ∀ item ∈ items, Sound Session.pool .empty (lowerStmt item) fun _ q => q = .empty) :
    Sound Session.pool .empty (lowerItems items) fun _ q => q = .empty := by
  induction items with
  | nil =>
    rw [lowerItems]
    exact .pure rfl
  | cons item items ih =>
    rw [List.forall_mem_cons] at h
    rw [lowerItems]
    exact .andThen h.1 fun _ => ih h.2

theorem lowerBody_sound {body : Stmt}
    (h : ∀ item ∈ body.items, Sound Session.pool .empty (lowerStmt item) fun _ q => q = .empty) :
    Sound Session.pool .empty (lowerBody body) fun _ q => q = .empty := by
  obtain ⟨pos, items, rfl⟩ | ⟨hitems, hbody⟩ := lowerBody_cases body
  · exact lowerItems_sound_of h
  · rw [hbody]
    exact h body (hitems ▸ List.mem_singleton_self body)

/-- If no register is in use, lowering a statement is sound and leaves none in use. -/
theorem lowerStmt_sound (stmt : Stmt) :
    Sound Session.pool .empty (lowerStmt stmt) fun _ q => q = .empty := by
  induction stmt using Stmt.induct with
  | var pos decl =>
    rw [lowerStmt]
    exact .visit (lowerVariable_sound pos decl)
  | prototype pos head =>
    rw [lowerStmt]
    exact .visit (declareFunction_sound pos head false)
  | function pos head body ih =>
    rw [lowerStmt_function]
    exact .visit (lowerFunction_sound (lowerBody_sound ih) pos head)
  | block pos items ih =>
    rw [lowerStmt]
    exact .visit (inScope_sound (lowerItems_sound_of ih))
  | expr pos e =>
    rw [lowerStmt]
    exact .visit (evaluateOnly_sound e)
  | ifThen pos cond yes ih =>
    rw [lowerStmt]
    refine .visit (.andThen onScratch_newLabel_sound fun ok => ?_)
    refine .andThen onScratch_newLabel_sound fun done => ?_
    refine .andThen (branch_sound cond ok done) fun _ => ?_
    exact .andThen ih fun _ => .emitLabel done
  | ifElse pos cond yes no ihyes ihno =>
    rw [lowerStmt]
    refine .visit (.andThen onScratch_newLabel_sound fun ok => ?_)
    refine .andThen onScratch_newLabel_sound fun otherwise => ?_
    refine .andThen onScratch_newLabel_sound fun done => ?_
    refine .andThen (branch_sound cond ok otherwise) fun _ => .andThen ihyes fun _ => ?_
    refine .andThen (.emit (by simp [Instruction.reads])) fun _ => ?_
    exact .andThen (.emitLabel otherwise) fun _ => .andThen ihno fun _ => .emitLabel done
  | whileLoop pos cond body ih =>
    rw [lowerStmt]
    exact .visit (lowerLoop_sound ih (some cond) none)
  | forLoop pos init cond step body ih =>
    rw [lowerStmt]
    refine .visit (.andThen (evaluateOption_sound init) fun _ => ?_)
    exact lowerLoop_sound ih cond step
  | ret pos value =>
    rw [lowerStmt]
    exact .visit (lowerReturn_sound pos value)

theorem lowerItems_sound (items : List Stmt) :
    Sound Session.pool .empty (lowerItems items) fun _ q => q = .empty :=
  lowerItems_sound_of fun item _ => lowerStmt_sound item

end WordC.Lowering
