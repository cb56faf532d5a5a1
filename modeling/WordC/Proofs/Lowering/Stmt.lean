import WordC.Lowering.Stmt
import WordC.Proofs.Lowering.Expr

/-!
# Runs of the lowering of statements

What a successful run on a statement consists of: the runs on its parts, the lines that are put
between theirs, and the session that is left.

* `Session.skipLabels`: the session with labels handed out;
* `Session.afterExpr`: the session behind an expression whose register was given back.
-/

namespace WordC

namespace Session

/-- The session with `n` labels more handed out. -/
def skipLabels (s : Session) (n : Nat) : Session :=
  { s with scratch := { s.scratch with labels := s.scratch.labels + n } }

/-- The session behind an expression, with its register given back. -/
def afterExpr (s : Session) (a : Emission Scratch Register) : Session :=
  { s with scratch := { a.state with pool := s.scratch.pool } }

variable (s : Session) (n m : Nat) (a : Emission Scratch Register)

@[simp] theorem symbols_skipLabels : (s.skipLabels n).symbols = s.symbols := rfl
@[simp] theorem frame_skipLabels : (s.skipLabels n).frame = s.frame := rfl
@[simp] theorem pool_skipLabels : (s.skipLabels n).scratch.pool = s.scratch.pool := rfl
@[simp] theorem strings_skipLabels : (s.skipLabels n).scratch.strings = s.scratch.strings := rfl
@[simp] theorem labels_skipLabels : (s.skipLabels n).scratch.labels = s.scratch.labels + n := rfl

@[simp] theorem skipLabels_skipLabels :
    (s.skipLabels n).skipLabels m = s.skipLabels (n + m) := by
  simp [skipLabels, Nat.add_assoc]

@[simp] theorem symbols_afterExpr : (s.afterExpr a).symbols = s.symbols := rfl
@[simp] theorem frame_afterExpr : (s.afterExpr a).frame = s.frame := rfl
@[simp] theorem pool_afterExpr : (s.afterExpr a).scratch.pool = s.scratch.pool := rfl
@[simp] theorem strings_afterExpr : (s.afterExpr a).scratch.strings = a.state.strings := rfl
@[simp] theorem labels_afterExpr : (s.afterExpr a).scratch.labels = a.state.labels := rfl

end Session

namespace Lowering
open Emitter

variable {s : Session}

/-! ### Expressions in a session -/

theorem onScratch_eq_ok_iff {α : Type} {x : Emitter Scratch α} {em : Emission Session α} :
    onScratch x s = .ok em ↔ ∃ a, x s.scratch = .ok a ∧
      em = ⟨a.value, a.lines, { s with scratch := a.state }⟩ := focus_eq_ok_iff

theorem onScratch_newLabel_eq_ok_iff {em : Emission Session String} :
    onScratch newLabel s = .ok em ↔ em = ⟨flowLabel s.scratch.labels, [], s.skipLabels 1⟩ := by
  rw [onScratch_eq_ok_iff]
  constructor
  · rintro ⟨a, ha, rfl⟩
    rw [newLabel_eq_ok_iff.1 ha]
    rfl
  · rintro rfl
    exact ⟨_, newLabel_eq_ok_iff.2 rfl, rfl⟩

theorem onScratch_release_eq_ok_iff {r : Register} {em : Emission Session Unit} :
    onScratch (release r) s = .ok em ↔
      em = ⟨(), [], { s with scratch := { s.scratch with pool := s.scratch.pool.free r } }⟩ := by
  rw [onScratch_eq_ok_iff]
  constructor
  · rintro ⟨a, ha, rfl⟩
    rw [release_eq_ok_iff.1 ha]
  · rintro rfl
    exact ⟨_, release_eq_ok_iff.2 rfl, rfl⟩

theorem evaluate_eq_ok_iff {e : Expr} {em : Emission Session Register} :
    evaluate e s = .ok em ↔ ∃ a, lowerExpr s.symbols e s.scratch = .ok a ∧
      em = ⟨a.value, a.lines, { s with scratch := a.state }⟩ := by
  simp only [evaluate, bind_eq_ok_iff, get_eq_ok_iff, onScratch_eq_ok_iff]
  constructor
  · rintro ⟨_, _, rfl, ⟨a, ha, rfl⟩, rfl⟩
    exact ⟨a, ha, rfl⟩
  · rintro ⟨a, ha, rfl⟩
    exact ⟨_, _, rfl, ⟨a, ha, rfl⟩, rfl⟩

/-- Giving back the register of an expression leaves the session behind it. -/
theorem release_afterExpr {e : Expr} {a : Emission Scratch Register}
    (ha : lowerExpr s.symbols e s.scratch = .ok a) :
    { s with scratch := { a.state with pool := a.state.pool.free a.value } } = s.afterExpr a := by
  rw [(lowerExpr_takes e ha).free_eq]
  rfl

theorem evaluateOnly_ok {e : Expr} {em : Emission Session Unit} (h : evaluateOnly e s = .ok em) :
    ∃ a, lowerExpr s.symbols e s.scratch = .ok a ∧ em = ⟨(), a.lines, s.afterExpr a⟩ := by
  simp only [evaluateOnly, bind_eq_ok_iff, evaluate_eq_ok_iff, onScratch_release_eq_ok_iff] at h
  obtain ⟨_, _, ⟨a, ha, rfl⟩, rfl, rfl⟩ := h
  exact ⟨a, ha, by simp [← release_afterExpr ha]⟩

/-! ### Declarations -/

theorem declare_eq_ok_iff {pos : Position} {x : String} {symbol : Symbol}
    {em : Emission Session Unit} :
    declare pos x symbol s = .ok em ↔ ∃ table, s.symbols.declare x symbol = .ok table ∧
      em = ⟨(), [], { s with symbols := table }⟩ := by
  simp only [declare, bind_eq_ok_iff, get_eq_ok_iff, ofExcept_eq_ok_iff, modify_eq_ok_iff]
  constructor
  · rintro ⟨_, _, rfl, ⟨_, _, ⟨table, ht, rfl⟩, rfl, rfl⟩, rfl⟩
    exact ⟨table, ht, rfl⟩
  · rintro ⟨table, ht, rfl⟩
    exact ⟨_, _, rfl, ⟨_, _, ⟨table, ht, rfl⟩, rfl, rfl⟩, rfl⟩

theorem place_of_none {pos : Position} {ty : Ty} {constant : Bool} {em : Emission Session Symbol}
    (hf : s.frame = none) (h : place pos ty constant s = .ok em) :
    em = ⟨.static ty constant, [], s⟩ := by
  simp only [place, bind_eq_ok_iff, get_eq_ok_iff] at h
  obtain ⟨_, _, rfl, h, rfl⟩ := h
  simp only [hf, pure_eq_ok_iff] at h
  subst h
  rfl

theorem place_of_some {pos : Position} {ty : Ty} {constant : Bool} {em : Emission Session Symbol}
    {frame : Frame} (hf : s.frame = some frame) (h : place pos ty constant s = .ok em) :
    ∃ bytes, { frame with words := frame.words + ty.words : Frame }.bytes? = some bytes ∧
      em = ⟨.stack (localOffset bytes) ty constant, [],
        { s with frame := some { frame with words := frame.words + ty.words } }⟩ := by
  simp only [place, bind_eq_ok_iff, get_eq_ok_iff] at h
  obtain ⟨_, _, rfl, h, rfl⟩ := h
  simp only [hf] at h
  cases hb : { frame with words := frame.words + ty.words : Frame }.bytes? with
  | none => simp [hb] at h
  | some bytes =>
    simp only [hb, bind_eq_ok_iff, modify_eq_ok_iff, pure_eq_ok_iff] at h
    obtain ⟨_, _, rfl, rfl, rfl⟩ := h
    exact ⟨bytes, rfl, rfl⟩

theorem place_lines {pos : Position} {ty : Ty} {constant : Bool} {em : Emission Session Symbol}
    (h : place pos ty constant s = .ok em) :
    em.lines = [] ∧ em.state.scratch = s.scratch ∧ em.state.symbols = s.symbols := by
  cases hf : s.frame with
  | none =>
    rw [place_of_none hf h]
    exact ⟨rfl, rfl, rfl⟩
  | some frame =>
    obtain ⟨_, -, rfl⟩ := place_of_some hf h
    exact ⟨rfl, rfl, rfl⟩

theorem lowerVariable_none_ok {pos : Position} {decl : Variable} {em : Emission Session Unit}
    (hinit : decl.init = none) (h : lowerVariable pos decl s = .ok em) :
    ∃ p table, place pos decl.ty decl.constant s = .ok p ∧
      s.symbols.declare decl.name p.value = .ok table ∧
      em = ⟨(), [], ⟨s.scratch, table, p.state.frame⟩⟩ := by
  simp only [lowerVariable, hinit, bind_eq_ok_iff, declare_eq_ok_iff] at h
  obtain ⟨p, _, hp, ⟨table, ht, rfl⟩, rfl⟩ := h
  obtain ⟨hlines, hscratch, hsymbols⟩ := place_lines hp
  rw [hsymbols] at ht
  exact ⟨p, table, hp, ht, by simp [hlines, hscratch]⟩

/-- The initial value of a variable is evaluated before the name is declared. -/
theorem lowerVariable_some_ok {pos : Position} {decl : Variable} {init : Expr}
    {em : Emission Session Unit} (hinit : decl.init = some init)
    (h : lowerVariable pos decl s = .ok em) :
    ∃ a p table address, lowerExpr s.symbols init s.scratch = .ok a ∧
      place pos decl.ty decl.constant { s with scratch := a.state } = .ok p ∧
      s.symbols.declare decl.name p.value = .ok table ∧
      storeAddress? decl.name p.value = some address ∧
      em = ⟨(), a.lines ++ [.instruction (.mov address a.value)],
        ⟨(s.afterExpr a).scratch, table, p.state.frame⟩⟩ := by
  simp only [lowerVariable, hinit, bind_eq_ok_iff, evaluate_eq_ok_iff, declare_eq_ok_iff,
    store_eq_ok_iff, onScratch_release_eq_ok_iff] at h
  obtain ⟨_, _, ⟨a, ha, rfl⟩, ⟨p, _, hp, ⟨_, _, ⟨table, ht, rfl⟩, ⟨_, _, ⟨address, haddr, rfl⟩, rfl,
    rfl⟩, rfl⟩, rfl⟩, rfl⟩ := h
  obtain ⟨hlines, hscratch, hsymbols⟩ := place_lines hp
  rw [hsymbols] at ht
  exact ⟨a, p, table, address, ha, hp, ht, haddr,
    by simp [hlines, hscratch, ← release_afterExpr ha]⟩

/-! ### Control flow -/

theorem branch_ok {cond : Expr} {ok otherwise : String} {em : Emission Session Unit}
    (h : branch cond ok otherwise s = .ok em) :
    ∃ a, lowerExpr s.symbols cond s.scratch = .ok a ∧
      em = ⟨(), a.lines ++ [.instruction (.jnz a.value ok), .instruction (.jmp otherwise),
        .label ok], s.afterExpr a⟩ := by
  simp only [branch, bind_eq_ok_iff, evaluate_eq_ok_iff, emit_eq_ok_iff, emitLabel_eq_ok_iff,
    onScratch_release_eq_ok_iff] at h
  obtain ⟨_, _, ⟨a, ha, rfl⟩, ⟨_, _, rfl, ⟨_, _, rfl, ⟨_, _, rfl, rfl, rfl⟩, rfl⟩, rfl⟩, rfl⟩ := h
  exact ⟨a, ha, by simp [← release_afterExpr ha]⟩

theorem inScope_ok {x : Emitter Session Unit} {em : Emission Session Unit}
    (h : inScope x s = .ok em) :
    s.frame.isSome = true ∧ (∃ a, x { s with symbols := s.symbols.openScope } = .ok a ∧
        em = ⟨(), a.lines, { a.state with symbols := a.state.symbols.closeScope }⟩) ∨
      s.frame = none ∧ x s = .ok em := by
  simp only [inScope, bind_eq_ok_iff, get_eq_ok_iff] at h
  obtain ⟨_, second, rfl, h, rfl⟩ := h
  cases hf : s.frame with
  | none =>
    rw [hf] at h
    exact .inr ⟨rfl, h⟩
  | some frame =>
    rw [hf] at h
    simp only [Option.isSome_some, if_true, bind_eq_ok_iff, onSymbols, modify_eq_ok_iff] at h
    obtain ⟨_, _, rfl, ⟨a, _, ha, rfl, rfl⟩, rfl⟩ := h
    exact .inl ⟨rfl, a, by rwa [hf] at ha, by simp⟩

theorem evaluateOption_none_ok {em : Emission Session Unit} (h : evaluateOption none s = .ok em) :
    em = ⟨(), [], s⟩ := pure_eq_ok_iff.1 h

theorem loopTest_some_ok {done : String} {cond : Expr} {em : Emission Session Unit}
    (h : loopTest done (some cond) s = .ok em) :
    branch cond (flowLabel s.scratch.labels) done (s.skipLabels 1) = .ok em := by
  simp only [loopTest, bind_eq_ok_iff, onScratch_newLabel_eq_ok_iff] at h
  obtain ⟨_, second, rfl, h, rfl⟩ := h
  exact h

theorem lowerLoop_ok {cond step : Option Expr} {body : Emitter Session Unit}
    {em : Emission Session Unit} (h : lowerLoop cond step body s = .ok em) :
    ∃ t b u, loopTest (flowLabel (s.scratch.labels + 1)) cond (s.skipLabels 2) = .ok t ∧
      body t.state = .ok b ∧ evaluateOption step b.state = .ok u ∧
      em = ⟨(), [.label (flowLabel s.scratch.labels)] ++ (t.lines ++ (b.lines ++ (u.lines ++
        [.instruction (.jmp (flowLabel s.scratch.labels)),
          .label (flowLabel (s.scratch.labels + 1))]))), u.state⟩ := by
  simp only [lowerLoop, bind_eq_ok_iff, onScratch_newLabel_eq_ok_iff, emit_eq_ok_iff,
    emitLabel_eq_ok_iff] at h
  obtain ⟨_, _, rfl, ⟨_, _, rfl, ⟨_, _, rfl, ⟨t, _, ht, ⟨b, _, hb, ⟨u, _, hu, ⟨_, _, rfl, rfl,
    rfl⟩, rfl⟩, rfl⟩, rfl⟩, rfl⟩, rfl⟩, rfl⟩ := h
  exact ⟨t, b, u, by simpa using ht, hb, hu, by simp⟩

theorem lowerReturn_none_ok {pos : Position} {em : Emission Session Unit}
    (h : lowerReturn pos none s = .ok em) :
    s.frame.isSome = true ∧ em = ⟨(), epilogue.map .instruction, s⟩ := by
  simp only [lowerReturn, bind_eq_ok_iff, get_eq_ok_iff] at h
  obtain ⟨_, second, rfl, h, rfl⟩ := h
  cases hf : s.frame with
  | none => simp [hf] at h
  | some frame =>
    simp only [hf, Option.isNone_some, if_neg Bool.false_ne_true, emitCode_eq_ok_iff] at h
    subst h
    exact ⟨rfl, rfl⟩

theorem lowerReturn_some_ok {pos : Position} {e : Expr} {em : Emission Session Unit}
    (h : lowerReturn pos (some e) s = .ok em) :
    s.frame.isSome = true ∧ ∃ a, lowerExpr s.symbols e s.scratch = .ok a ∧
      em = ⟨(), a.lines ++ (Instruction.mov Register.rv a.value :: epilogue).map .instruction,
        s.afterExpr a⟩ := by
  simp only [lowerReturn, bind_eq_ok_iff, get_eq_ok_iff] at h
  obtain ⟨_, second, rfl, h, rfl⟩ := h
  cases hf : s.frame with
  | none => simp [hf] at h
  | some frame =>
    simp only [hf, Option.isNone_some, if_neg Bool.false_ne_true, bind_eq_ok_iff,
      evaluate_eq_ok_iff, emit_eq_ok_iff, onScratch_release_eq_ok_iff, emitCode_eq_ok_iff] at h
    obtain ⟨_, _, ⟨a, ha, rfl⟩, ⟨_, _, rfl, ⟨_, _, rfl, rfl, rfl⟩, rfl⟩, rfl⟩ := h
    exact ⟨rfl, a, ha, by simp [← release_afterExpr ha, hf]⟩

/-! ### Functions -/

theorem declareFunction_ok {pos : Position} {head : Signature} {defined : Bool}
    {em : Emission Session Unit} (h : declareFunction pos head defined s = .ok em) :
    s.frame = none ∧ ∃ table,
      s.symbols.declare head.name (functionSymbol head defined) = .ok table ∧
      em = ⟨(), [], { s with symbols := table }⟩ := by
  simp only [declareFunction, bind_eq_ok_iff, get_eq_ok_iff] at h
  obtain ⟨_, second, rfl, h, rfl⟩ := h
  cases hf : s.frame with
  | some frame => simp [hf] at h
  | none =>
    simp only [hf, Option.isSome_none, if_neg Bool.false_ne_true, declare_eq_ok_iff] at h
    obtain ⟨table, ht, rfl⟩ := h
    exact ⟨rfl, table, ht, rfl⟩

theorem declareParams_nil_ok {pos : Position} {function : String} {em : Emission Session Unit}
    (h : declareParams pos function [] s = .ok em) : em = ⟨(), [], s⟩ := by
  rwa [declareParams, pure_eq_ok_iff] at h

theorem declareParams_cons_ok {pos : Position} {function : String} {param : Param}
    {params : List Param} {em : Emission Session Unit}
    (h : declareParams pos function (param :: params) s = .ok em) :
    ∃ offset table, paramOffset? (params.length + 1) = some offset ∧
      s.symbols.declare param.name (.stack offset param.ty false) = .ok table ∧
      declareParams pos function params { s with symbols := table } = .ok em := by
  rw [declareParams] at h
  cases ho : paramOffset? (params.length + 1) with
  | none => simp [ho] at h
  | some offset =>
    simp only [ho, bind_eq_ok_iff, declare_eq_ok_iff] at h
    obtain ⟨_, second, ⟨table, ht, rfl⟩, h, rfl⟩ := h
    exact ⟨offset, table, rfl, ht, h⟩

theorem declareParams_ok {pos : Position} {function : String} : ∀ {params : List Param}
    {s : Session} {em : Emission Session Unit}, declareParams pos function params s = .ok em →
    em.lines = [] ∧ em.state.scratch = s.scratch ∧ em.state.frame = s.frame
  | [], _, _, h => by
    rw [declareParams_nil_ok h]
    exact ⟨rfl, rfl, rfl⟩
  | param :: params, _, _, h => by
    obtain ⟨offset, table, -, -, h⟩ := declareParams_cons_ok h
    obtain ⟨hlines, hscratch, hframe⟩ := declareParams_ok h
    exact ⟨hlines, hscratch, hframe⟩

/-- Leaving a function closes its scopes; if it has locals there is room to be made for them. -/
theorem leaveFunction_ok {pos : Position} {em : Emission Session (List Instruction)}
    (h : leaveFunction pos s = .ok em) :
    (em.value = [] ∨ ∃ bytes, em.value = reservation bytes) ∧ em.lines = [] ∧
      em.state = ⟨s.scratch, s.symbols.closeAll, none⟩ := by
  simp only [leaveFunction, bind_eq_ok_iff, get_eq_ok_iff, modify_eq_ok_iff] at h
  obtain ⟨_, _, rfl, ⟨_, second, rfl, h, rfl⟩, rfl⟩ := h
  cases hf : s.frame with
  | none =>
    simp only [hf, pure_eq_ok_iff] at h
    subst h
    exact ⟨.inl rfl, rfl, rfl⟩
  | some frame =>
    by_cases hw : frame.words = 0
    · simp only [hf, hw, if_true, pure_eq_ok_iff] at h
      subst h
      exact ⟨.inl rfl, rfl, rfl⟩
    · cases hb : frame.bytes? with
      | none => simp [hf, hw, hb] at h
      | some bytes =>
        simp only [hf, hw, if_false, hb, pure_eq_ok_iff] at h
        subst h
        exact ⟨.inr ⟨bytes, rfl⟩, rfl, rfl⟩

theorem enterFunction_ok {pos : Position} {head : Signature} {em : Emission Session Unit}
    (h : enterFunction pos head s = .ok em) :
    declareParams pos head.name head.params
      ⟨s.scratch, s.symbols.openScope, some ⟨head.name, 0⟩⟩ = .ok em := by
  simp only [enterFunction, bind_eq_ok_iff, onSymbols, modify_eq_ok_iff] at h
  obtain ⟨_, _, rfl, ⟨_, p, rfl, hp, rfl⟩, rfl⟩ := h
  exact hp

/-- The body is lowered behind the parameters; when it is known what its locals take, the lines are
put behind the reservation. -/
theorem lowerFunction_run {pos : Position} {head : Signature} {body : Emitter Session Unit}
    {em : Emission Session Unit} (h : lowerFunction pos head body s = .ok em) :
    s.frame = none ∧ ∃ table p b r,
      s.symbols.declare head.name (functionSymbol head true) = .ok table ∧
      enterFunction pos head { s with symbols := table } = .ok p ∧ body p.state = .ok b ∧
      leaveFunction pos b.state = .ok r ∧
      em = ⟨(), [.label head.name] ++ ((prologue ++ r.value).map .instruction ++ (b.lines ++
        epilogue.map .instruction)), r.state⟩ := by
  simp only [lowerFunction, bind_eq_ok_iff, behind_eq_ok_iff, emitLabel_eq_ok_iff,
    emitCode_eq_ok_iff] at h
  obtain ⟨_, _, hd, ⟨_, _, ⟨_, _, ⟨p, b, hp, hb, rfl⟩, ⟨r, _, hr, ⟨_, _, rfl, rfl, rfl⟩, rfl⟩, rfl⟩,
    rfl, rfl⟩, rfl⟩ := h
  obtain ⟨hf, table, ht, rfl⟩ := declareFunction_ok hd
  obtain ⟨-, hlines, -⟩ := leaveFunction_ok hr
  obtain ⟨hplines, -, -⟩ := declareParams_ok (enterFunction_ok hp)
  exact ⟨hf, table, p, b, r, ht, hp, hb, hr, by simp [hlines, hplines]⟩

theorem lowerFunction_ok {pos : Position} {head : Signature} {body : Emitter Session Unit}
    {em : Emission Session Unit} (h : lowerFunction pos head body s = .ok em) :
    s.frame = none ∧ ∃ table p b reserve,
      s.symbols.declare head.name (functionSymbol head true) = .ok table ∧
      declareParams pos head.name head.params
        ⟨s.scratch, table.openScope, some ⟨head.name, 0⟩⟩ = .ok p ∧
      body p.state = .ok b ∧ (reserve = [] ∨ ∃ bytes, reserve = reservation bytes) ∧
      em = ⟨(), [.label head.name] ++ ((prologue ++ reserve).map .instruction ++ (b.lines ++
        epilogue.map .instruction)), ⟨b.state.scratch, b.state.symbols.closeAll, none⟩⟩ := by
  obtain ⟨hf, table, p, b, r, ht, hp, hb, hr, rfl⟩ := lowerFunction_run h
  obtain ⟨hreserve, -, hstate⟩ := leaveFunction_ok hr
  exact ⟨hf, table, p, b, r.value, ht, enterFunction_ok hp, hb, hreserve, by rw [hstate]⟩

/-- The body of a function; its outermost block shares the scope of the parameters. -/
def lowerBody : Stmt → Emitter Session Unit
  | .block _ items => lowerItems items
  | body => lowerStmt body

theorem lowerBody_cases (body : Stmt) : (∃ pos items, body = .block pos items) ∨
    body.items = [body] ∧ lowerBody body = lowerStmt body := by
  cases body with
  | block pos items => exact .inl ⟨pos, items, rfl⟩
  | _ => exact .inr ⟨rfl, rfl⟩

theorem lowerStmt_function (pos : Position) (head : Signature) (body : Stmt) :
    lowerStmt (.function pos head body) =
      visit (.function pos head body) (lowerFunction pos head (lowerBody body)) := by
  cases body <;> rfl

theorem lowerItems_singleton (stmt : Stmt) : lowerItems [stmt] s = lowerStmt stmt s := by
  rw [lowerItems, lowerItems, bind_apply]
  cases lowerStmt stmt s <;> simp [pure_apply]

/-- The run of a function depends on its body by the runs of that only. -/
theorem lowerFunction_congr {body body' : Emitter Session Unit} (h : ∀ s, body s = body' s)
    (pos : Position) (head : Signature) :
    lowerFunction pos head body s = lowerFunction pos head body' s := by
  simp only [lowerFunction, bind_apply, behind_apply, h]

theorem lowerBody_apply (body : Stmt) : lowerBody body s = lowerItems body.items s := by
  obtain ⟨pos, items, rfl⟩ | ⟨hitems, hbody⟩ := lowerBody_cases body
  · rfl
  · rw [hitems, hbody, lowerItems_singleton]

theorem lowerStmt_function_apply (pos : Position) (head : Signature) (body : Stmt) :
    lowerStmt (.function pos head body) s = lowerFunction pos head (lowerItems body.items) s := by
  rw [lowerStmt_function, visit_apply]
  exact lowerFunction_congr (fun _ => lowerBody_apply body) pos head

/-! ### Statements -/

theorem lowerStmt_ifThen_ok {pos : Position} {cond : Expr} {yes : Stmt}
    {em : Emission Session Unit} (h : lowerStmt (.ifThen pos cond yes) s = .ok em) :
    ∃ c y, branch cond (flowLabel s.scratch.labels) (flowLabel (s.scratch.labels + 1))
        (s.skipLabels 2) = .ok c ∧ lowerStmt yes c.state = .ok y ∧
      em = ⟨(), c.lines ++ (y.lines ++ [.label (flowLabel (s.scratch.labels + 1))]), y.state⟩ := by
  rw [lowerStmt, visit_apply] at h
  simp only [bind_eq_ok_iff, onScratch_newLabel_eq_ok_iff, emitLabel_eq_ok_iff] at h
  obtain ⟨_, _, rfl, ⟨_, _, rfl, ⟨c, _, hc, ⟨y, _, hy, rfl, rfl⟩, rfl⟩, rfl⟩, rfl⟩ := h
  exact ⟨c, y, by simpa using hc, hy, by simp⟩

theorem lowerStmt_ifElse_ok {pos : Position} {cond : Expr} {yes no : Stmt}
    {em : Emission Session Unit} (h : lowerStmt (.ifElse pos cond yes no) s = .ok em) :
    ∃ c y z, branch cond (flowLabel s.scratch.labels) (flowLabel (s.scratch.labels + 1))
        (s.skipLabels 3) = .ok c ∧ lowerStmt yes c.state = .ok y ∧ lowerStmt no y.state = .ok z ∧
      em = ⟨(), c.lines ++ (y.lines ++
        ([.instruction (.jmp (flowLabel (s.scratch.labels + 2))),
          .label (flowLabel (s.scratch.labels + 1))] ++
        (z.lines ++ [.label (flowLabel (s.scratch.labels + 2))]))), z.state⟩ := by
  rw [lowerStmt, visit_apply] at h
  simp only [bind_eq_ok_iff, onScratch_newLabel_eq_ok_iff, emitLabel_eq_ok_iff, emit_eq_ok_iff] at h
  obtain ⟨_, _, rfl, ⟨_, _, rfl, ⟨_, _, rfl, ⟨c, _, hc, ⟨y, _, hy, ⟨_, _, rfl, ⟨_, _, rfl,
    ⟨z, _, hz, rfl, rfl⟩, rfl⟩, rfl⟩, rfl⟩, rfl⟩, rfl⟩, rfl⟩, rfl⟩ := h
  exact ⟨c, y, z, by simpa using hc, hy, hz, by simp⟩

theorem lowerStmt_forLoop_ok {pos : Position} {init cond step : Option Expr} {body : Stmt}
    {em : Emission Session Unit} (h : lowerStmt (.forLoop pos init cond step body) s = .ok em) :
    ∃ i l, evaluateOption init s = .ok i ∧
      lowerLoop cond step (lowerStmt body) i.state = .ok l ∧
      em = ⟨(), i.lines ++ l.lines, l.state⟩ := by
  rw [lowerStmt, visit_apply, bind_eq_ok_iff] at h
  obtain ⟨i, l, hi, hl, rfl⟩ := h
  exact ⟨i, l, hi, hl, rfl⟩

theorem lowerItems_nil_ok {em : Emission Session Unit} (h : lowerItems [] s = .ok em) :
    em = ⟨(), [], s⟩ := by
  rwa [lowerItems, pure_eq_ok_iff] at h

theorem lowerItems_cons_ok {item : Stmt} {items : List Stmt} {em : Emission Session Unit}
    (h : lowerItems (item :: items) s = .ok em) :
    ∃ a b, lowerStmt item s = .ok a ∧ lowerItems items a.state = .ok b ∧
      em = ⟨(), a.lines ++ b.lines, b.state⟩ := by
  rw [lowerItems, bind_eq_ok_iff] at h
  obtain ⟨a, b, ha, hb, rfl⟩ := h
  exact ⟨a, b, ha, hb, rfl⟩

end Lowering

end WordC
