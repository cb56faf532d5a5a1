import WordC.Proofs.Labels.Session
import WordC.Proofs.Semantics.Stmt
import WordC.Proofs.Simulation.Expr

/-!
# Lowered statements do what they mean

The lines of a statement without calls and function definitions, wherever they stand in a listing
with distinct labels, follow the execution of the statement (`Tracks`): if it is run through, so are
they, up to the line behind them; if it returns, they come to a `ret` with the frame taken down; and
if it uses up its fuel, they make at least as many steps without leaving their stretch.

* `lowerStmt_after?`: the session behind a statement holds the context behind it;
* `iterate_tracks`: the rounds of a loop, by induction on their number;
* `lowerStmt_tracks`: all statements.
-/

namespace WordC

variable {μ : Type}

/-- What the session knows in front of a statement. -/
def Session.context (s : Session) : Context := ⟨s.symbols, s.frame, s.scratch.strings.length⟩

namespace Lowering
open Emitter

variable {s : Session}

/-! ### Contexts -/

@[simp] theorem context_skipLabels (n : Nat) : (s.skipLabels n).context = s.context := rfl

theorem context_afterExpr {e : Expr} {a : Emission Scratch Register}
    (ha : lowerExpr s.symbols e s.scratch = .ok a) :
    (s.afterExpr a).context = s.context.skip e.literals.length := by
  simp [Session.context, Context.skip, lowerExpr_strings e ha]

theorem place_context {pos : Position} {ty : Ty} {constant : Bool} {p : Emission Session Symbol}
    (h : place pos ty constant s = .ok p) :
    s.context.place? ty constant = some (p.value, p.state.context) := by
  cases hf : s.frame with
  | none =>
    rw [place_of_none hf h]
    simp [Context.place?, Session.context, hf]
  | some frame =>
    obtain ⟨bytes, hb, rfl⟩ := place_of_some hf h
    simp [Context.place?, Session.context, hf, hb]

theorem context_declare? {x : String} {symbol : Symbol} {table : SymbolTable}
    (h : s.symbols.declare x symbol = .ok table) :
    s.context.declare? x symbol = some { s with symbols := table : Session }.context := by
  simp [Context.declare?, Session.context, h, Except.toOption]

/-- A variable is declared behind the literals of its initial value. -/
theorem context_declareVariable? {t : Session} {pos : Position} {decl : Variable}
    {p : Emission Session Symbol} {table : SymbolTable}
    (ht : t.context = s.context.skip (Expr.literals? decl.init).length)
    (hp : place pos decl.ty decl.constant t = .ok p)
    (hd : s.symbols.declare decl.name p.value = .ok table) :
    s.context.declareVariable? decl =
      some (p.value, ⟨table, p.state.frame, t.scratch.strings.length⟩) := by
  obtain ⟨-, hscratch, hsymbols⟩ := place_lines hp
  have htable : p.state.symbols.declare decl.name p.value = .ok table := by
    rw [hsymbols, show t.symbols = s.symbols from congrArg Context.symbols ht, hd]
  rw [Context.declareVariable?, ← ht, place_context hp]
  simp only [Option.bind_eq_bind, Option.bind_some, context_declare? htable]
  rw [← hscratch]
  rfl

theorem lowerVariable_after? {pos : Position} {decl : Variable} {em : Emission Session Unit}
    (h : lowerVariable pos decl s = .ok em) :
    ∃ symbol, s.context.declareVariable? decl = some (symbol, em.state.context) := by
  cases hinit : decl.init with
  | none =>
    obtain ⟨p, table, hp, hd, rfl⟩ := lowerVariable_none_ok hinit h
    have ht : s.context = s.context.skip (Expr.literals? decl.init).length := by
      simp [hinit]
    have hdeclared := context_declareVariable? ht hp hd
    exact ⟨p.value, hdeclared⟩
  | some init =>
    obtain ⟨a, p, table, address, ha, hp, hd, -, rfl⟩ := lowerVariable_some_ok hinit h
    have ht : { s with scratch := a.state : Session }.context =
        s.context.skip (Expr.literals? decl.init).length := by
      rw [hinit]
      exact context_afterExpr ha
    have hdeclared := context_declareVariable? ht hp hd
    exact ⟨p.value, hdeclared⟩

theorem evaluateOption_context {e : Option Expr} {em : Emission Session Unit}
    (h : evaluateOption e s = .ok em) :
    em.state.context = s.context.skip (Expr.literals? e).length := by
  cases e with
  | none =>
    rw [evaluateOption_none_ok h]
    rfl
  | some e =>
    obtain ⟨a, ha, rfl⟩ := evaluateOnly_ok h
    exact context_afterExpr ha

theorem branch_context {cond : Expr} {ok otherwise : String} {em : Emission Session Unit}
    (h : branch cond ok otherwise s = .ok em) :
    em.state.context = s.context.skip cond.literals.length := by
  obtain ⟨a, ha, rfl⟩ := branch_ok h
  exact context_afterExpr ha

theorem loopTest_context {done : String} {cond : Option Expr} {em : Emission Session Unit}
    (h : loopTest done cond s = .ok em) :
    em.state.context = s.context.skip (Expr.literals? cond).length := by
  cases cond with
  | none =>
    rw [pure_eq_ok_iff.1 h]
    rfl
  | some cond =>
    have hbranch := branch_context (loopTest_some_ok h)
    exact hbranch

/-- The context behind a loop, from the one behind its body. -/
theorem lowerLoop_context {cond step : Option Expr} {body : Stmt} {em : Emission Session Unit}
    (hbody : ∀ {s : Session} {em : Emission Session Unit}, lowerStmt body s = .ok em →
      body.after? s.context = some em.state.context)
    (h : lowerLoop cond step (lowerStmt body) s = .ok em) :
    (body.after? (s.context.skip (Expr.literals? cond).length)).map
      (Context.skip · (Expr.literals? step).length) = some em.state.context := by
  obtain ⟨t, b, u, ht, hb, hu, rfl⟩ := lowerLoop_ok h
  have htest := loopTest_context ht
  rw [context_skipLabels] at htest
  rw [← htest, hbody hb, evaluateOption_context hu]
  rfl

theorem lowerItems_after?_of {items : List Stmt}
    (hitems : ∀ item ∈ items, item.definitions = [] → ∀ {s : Session} {em : Emission Session Unit},
      lowerStmt item s = .ok em → item.after? s.context = some em.state.context)
    (hdef : Stmt.definitionsOfAll items = []) :
    ∀ {s : Session} {em : Emission Session Unit}, lowerItems items s = .ok em →
      Stmt.afterAll? items s.context = some em.state.context := by
  induction items with
  | nil =>
    intro s em h
    rw [lowerItems_nil_ok h, Stmt.afterAll?]
  | cons item items ih =>
    intro s em h
    rw [Stmt.definitionsOfAll, List.append_eq_nil_iff] at hdef
    rw [List.forall_mem_cons] at hitems
    obtain ⟨a, b, ha, hb, rfl⟩ := lowerItems_cons_ok h
    have hrest := ih hitems.2 hdef.2 hb
    rw [Stmt.afterAll?, hitems.1 hdef.1 ha]
    exact hrest

/-- The session behind a statement without function definitions holds the context behind it. -/
theorem lowerStmt_after? (stmt : Stmt) (hdef : stmt.definitions = []) :
    ∀ {s : Session} {em : Emission Session Unit}, lowerStmt stmt s = .ok em →
      stmt.after? s.context = some em.state.context := by
  induction stmt using Stmt.induct with
  | var pos decl =>
    intro s em h
    rw [lowerStmt, visit_apply] at h
    obtain ⟨symbol, hs⟩ := lowerVariable_after? h
    simp [Stmt.after?, hs]
  | prototype pos head =>
    intro s em h
    rw [lowerStmt, visit_apply] at h
    obtain ⟨hf, table, hd, rfl⟩ := declareFunction_ok h
    have hnone : s.context.frame.isSome = false := by simp [Session.context, hf]
    rw [Stmt.after?, hnone, if_neg Bool.false_ne_true]
    exact context_declare? hd
  | function pos head body ih => simp [Stmt.definitions] at hdef
  | block pos items ih =>
    intro s em h
    rw [lowerStmt, visit_apply] at h
    rw [Stmt.definitions] at hdef
    obtain ⟨hf, a, ha, rfl⟩ | ⟨hf, ha⟩ := inScope_ok h
    · have hitems := lowerItems_after?_of ih hdef ha
      have hsome : s.context.frame.isSome = true := hf
      have henter : s.context.enter =
          { s with symbols := s.symbols.openScope : Session }.context := by
        rw [Context.enter, if_pos hsome]
        rfl
      rw [Stmt.after?, henter, hitems, Option.map_some, Context.leave, if_pos hsome]
      rfl
    · have hitems := lowerItems_after?_of ih hdef ha
      have hnone : ¬ s.context.frame.isSome = true := by simp [Session.context, hf]
      rw [Stmt.after?, Context.enter, if_neg hnone, hitems, Option.map_some, Context.leave,
        if_neg hnone]
  | expr pos e =>
    intro s em h
    rw [lowerStmt, visit_apply] at h
    obtain ⟨a, ha, rfl⟩ := evaluateOnly_ok h
    rw [Stmt.after?, ← context_afterExpr ha]
  | ifThen pos cond yes ih =>
    intro s em h
    obtain ⟨c, y, hc, hy, rfl⟩ := lowerStmt_ifThen_ok h
    have hyes := ih hdef hy
    rwa [branch_context hc] at hyes
  | ifElse pos cond yes no ihy ihn =>
    intro s em h
    rw [Stmt.definitions, List.append_eq_nil_iff] at hdef
    obtain ⟨c, y, z, hc, hy, hz, rfl⟩ := lowerStmt_ifElse_ok h
    have hyes := ihy hdef.1 hy
    have hno := ihn hdef.2 hz
    rw [branch_context hc, context_skipLabels] at hyes
    rw [Stmt.after?, hyes]
    exact hno
  | whileLoop pos cond body ih =>
    intro s em h
    rw [lowerStmt, visit_apply] at h
    simpa [Stmt.after?] using lowerLoop_context (ih hdef) h
  | forLoop pos init cond step body ih =>
    intro s em h
    obtain ⟨i, l, hi, hl, rfl⟩ := lowerStmt_forLoop_ok h
    have hloop := lowerLoop_context (ih hdef) hl
    rw [evaluateOption_context hi] at hloop
    rw [Stmt.after?, ← hloop]
    exact Option.map_eq_bind.symm
  | ret pos value =>
    intro s em h
    rw [lowerStmt, visit_apply] at h
    cases value with
    | none =>
      obtain ⟨hf, rfl⟩ := lowerReturn_none_ok h
      exact if_pos hf
    | some e =>
      obtain ⟨hf, a, ha, rfl⟩ := lowerReturn_some_ok h
      have hsome : s.context.frame.isSome = true := hf
      rw [Stmt.after?, if_pos hsome, Expr.literals?_some, ← context_afterExpr ha]

end Lowering

/-! ### Following an execution -/

/-- The machine stands at a `ret`, with the frame that `k` had taken down and the value of the
function in `rv` if it has one. -/
structure Returns (world : World μ) (lines : List Line) (k : Machine μ) (v : Option Word) (m : μ)
    (d : Config μ) : Prop where
  line : lines[d.line]? = some (.instruction .ret)
  memory : d.machine.memory = m
  rv : d.machine.registers .rv = v.getD (k.registers .rv)
  sp : d.machine.registers .sp = k.registers .sf + 2
  sf : d.machine.registers .sf = world.read m (k.registers .sf)

/-- The lines from `lo` up to `hi`, entered at `c`, follow an execution that came so far; if the
statement is run through they end at `stop`. -/
def Tracks (world : World μ) (lines : List Line) (p : RegisterPool) (lo hi fuel : Nat)
    (c : Config μ) (stop : Nat) : Progress μ → Prop
  | .unfinished => ∃ n d, fuel ≤ n ∧ Path world lines lo hi n c d
  | .normal m => ∃ n k, Path world lines lo hi n c ⟨stop, k⟩ ∧ k.memory = m ∧ p.Keeps c.machine k
  | .returned v m => ∃ n d, Path world lines lo hi n c d ∧ lo ≤ d.line ∧ d.line < hi ∧
    Returns world lines c.machine v m d

namespace Tracks

variable {world : World μ} {lines : List Line} {p : RegisterPool} {lo hi lo' hi' fuel n : Nat}
  {c d : Config μ} {mid stop : Nat} {progress : Progress μ}

theorem mono (h : Tracks world lines p lo hi fuel c stop progress) (hlo : lo' ≤ lo)
    (hhi : hi ≤ hi') : Tracks world lines p lo' hi' fuel c stop progress := by
  cases progress with
  | unfinished =>
    obtain ⟨n, d, hn, hpath⟩ := h
    exact ⟨n, d, hn, hpath.mono hlo hhi⟩
  | normal m =>
    obtain ⟨n, k, hpath, hrest⟩ := h
    exact ⟨n, k, hpath.mono hlo hhi, hrest⟩
  | returned v m =>
    obtain ⟨n, d, hpath, hd, hd', hret⟩ := h
    exact ⟨n, d, hpath.mono hlo hhi, hlo.trans hd, hd'.trans_le hhi, hret⟩

theorem weaken {fuel' : Nat} (h : Tracks world lines p lo hi fuel c stop progress)
    (hf : fuel' ≤ fuel) : Tracks world lines p lo hi fuel' c stop progress := by
  cases progress with
  | unfinished =>
    obtain ⟨n, d, hn, hpath⟩ := h
    exact ⟨n, d, hf.trans hn, hpath⟩
  | normal m => exact h
  | returned v m => exact h

/-- A path in front adds its steps. -/
theorem before (hpath : Path world lines lo hi n c d) (hkeep : p.Keeps c.machine d.machine)
    (h : Tracks world lines p lo hi fuel d stop progress) :
    Tracks world lines p lo hi (n + fuel) c stop progress := by
  cases progress with
  | unfinished =>
    obtain ⟨n', e, hn, hrest⟩ := h
    exact ⟨n + n', e, by omega, hpath.trans hrest⟩
  | normal m =>
    obtain ⟨n', k, hrest, hm, hkeep'⟩ := h
    exact ⟨n + n', k, hpath.trans hrest, hm, hkeep.trans hkeep'⟩
  | returned v m =>
    obtain ⟨n', e, hrest, hlo, hhi, hret⟩ := h
    refine ⟨n + n', e, hpath.trans hrest, hlo, hhi, hret.line, hret.memory, ?_, ?_, ?_⟩
    · rw [hret.rv, hkeep .rv rfl]
    · rw [hret.sp, hkeep.sf]
    · rw [hret.sf, hkeep.sf]

/-- What follows an execution that was run through follows the next one. -/
theorem andThen (h : Tracks world lines p lo hi fuel c mid progress)
    (next : μ → Option (Progress μ))
    (hnext : ∀ k : Machine μ, p.Keeps c.machine k → ∃ progress', next k.memory = some progress' ∧
      Tracks world lines p lo hi fuel ⟨mid, k⟩ stop progress') :
    ∃ progress', progress.andThen next = some progress' ∧
      Tracks world lines p lo hi fuel c stop progress' := by
  cases progress with
  | unfinished => exact ⟨.unfinished, rfl, h⟩
  | returned v m => exact ⟨.returned v m, rfl, h⟩
  | normal m =>
    obtain ⟨n, k, hpath, rfl, hkeep⟩ := h
    obtain ⟨progress', heq, htracks⟩ := hnext k hkeep
    exact ⟨progress', heq, (before hpath hkeep htracks).weaken (Nat.le_add_left fuel n)⟩

/-- One more step behind an execution that was run through. -/
theorem step (h : Tracks world lines p lo hi fuel c mid progress)
    (hstep : ∀ k : Machine μ, WordC.step world lines ⟨mid, k⟩ = some ⟨stop, k⟩) (hlo : lo ≤ mid)
    (hhi : mid < hi) : Tracks world lines p lo hi fuel c stop progress := by
  cases progress with
  | unfinished => exact h
  | returned v m => exact h
  | normal m =>
    obtain ⟨n, k, hpath, hm, hkeep⟩ := h
    exact ⟨n + 1, k, hpath.trans (.one hlo hhi (hstep k)), hm, hkeep⟩

end Tracks

/-- The rounds of a loop. The label in front of the test is at `top`, the body begins at `first`,
the step at `next`, the jump back is at `last` and the label behind the loop at `done`. -/
theorem iterate_tracks {world : World μ} {lines : List Line} {p : RegisterPool}
    {lo hi fuel top last done : Nat} (first next : Nat) {w : Word}
    {test : μ → Option (Bool × μ)} {body : μ → Option (Progress μ)} {step : μ → Option μ}
    (htop : ∀ k : Machine μ, WordC.step world lines ⟨top, k⟩ = some ⟨top + 1, k⟩)
    (htest : ∀ k : Machine μ, k.registers .sf = w → ∃ holds m, test k.memory = some (holds, m) ∧
      Tracks world lines p lo hi fuel ⟨top + 1, k⟩ (if holds then first else done) (.normal m))
    (hbody : ∀ k : Machine μ, k.registers .sf = w → ∃ progress, body k.memory = some progress ∧
      Tracks world lines p lo hi fuel ⟨first, k⟩ next progress)
    (hstep : ∀ k : Machine μ, k.registers .sf = w → ∃ m, step k.memory = some m ∧
      Tracks world lines p lo hi fuel ⟨next, k⟩ last (.normal m))
    (hlast : ∀ k : Machine μ, WordC.step world lines ⟨last, k⟩ = some ⟨top, k⟩)
    (hdone : ∀ k : Machine μ, WordC.step world lines ⟨done, k⟩ = some ⟨done + 1, k⟩)
    (hbounds : lo ≤ top ∧ top < hi ∧ lo ≤ last ∧ last < hi ∧ lo ≤ done ∧ done < hi) :
    ∀ rounds ≤ fuel, ∀ k : Machine μ, k.registers .sf = w →
      ∃ progress, iterate test body step rounds k.memory = some progress ∧
        Tracks world lines p lo hi rounds ⟨top, k⟩ (done + 1) progress := by
  obtain ⟨htop₁, htop₂, hlast₁, hlast₂, hdone₁, hdone₂⟩ := hbounds
  intro rounds
  -- the fuel of the parts stays, and the rounds that are left get fewer
  induction rounds with
  | zero =>
    intro _ k _
    exact ⟨.unfinished, rfl, 0, ⟨top, k⟩, le_rfl, .refl _⟩
  | succ rounds ih =>
    intro hr k hw
    obtain ⟨holds, m, htestk, n₁, k₁, hpath₁, rfl, hkeep₁⟩ := htest k hw
    have hfront : Path world lines lo hi (1 + n₁) ⟨top, k⟩ ⟨if holds then first else done, k₁⟩ :=
      (Path.one htop₁ htop₂ (htop k)).trans hpath₁
    cases holds with
    | false =>
      refine ⟨.normal k₁.memory, by simp [iterate, htestk], ?_⟩
      exact Tracks.step ⟨_, k₁, hfront, rfl, hkeep₁⟩ hdone hdone₁ hdone₂
    | true =>
      obtain ⟨progress, hbodyk, htracks⟩ := hbody k₁ (hkeep₁.sf.trans hw)
      -- a round costs the step at the label at least, so one more round one more step
      have hrest : ∀ k₂ : Machine μ, p.Keeps k₁ k₂ →
          ∃ progress', ((step k₂.memory).bind fun m => iterate test body step rounds m) =
            some progress' ∧
          Tracks world lines p lo hi (rounds + 1) ⟨next, k₂⟩ (done + 1) progress' := by
        intro k₂ hkeep₂
        have hw₂ : k₂.registers .sf = w := hkeep₂.sf.trans (hkeep₁.sf.trans hw)
        obtain ⟨m, hstepk, n₃, k₃, hpath₃, rfl, hkeep₃⟩ := hstep k₂ hw₂
        obtain ⟨progress', hiter, htracks'⟩ := ih (by omega) k₃ (hkeep₃.sf.trans hw₂)
        have hback : Path world lines lo hi (n₃ + 1) ⟨next, k₂⟩ ⟨top, k₃⟩ :=
          hpath₃.trans (.one hlast₁ hlast₂ (hlast k₃))
        refine ⟨progress', by rw [hstepk, Option.bind_some, hiter], ?_⟩
        exact (Tracks.before hback hkeep₃ htracks').weaken (by omega)
      obtain ⟨progress', heq, htracks'⟩ := (htracks.weaken hr).andThen
        (fun m => (step m).bind fun m => iterate test body step rounds m) hrest
      refine ⟨progress', by simpa [iterate, htestk, hbodyk] using heq, ?_⟩
      exact (Tracks.before hfront hkeep₁ htracks').weaken (by omega)

/-! ### Statements -/

namespace Lowering
open Emitter

variable (world : World μ) {lines : List Line} {s : Session} {w : Word} {pos : Nat} (fuel : Nat)

/-- Wherever the lines that are emitted here stand, and whatever the machine is in whose frame they
run, they follow the execution. -/
def Follows (lines : List Line) (w : Word) (x : Emitter Session Unit)
    (run : Context → μ → Option (Progress μ)) : Prop :=
  ∀ {s : Session} {em : Emission Session Unit} {pos : Nat} {k : Machine μ}, x s = .ok em →
    CodeAt lines pos em.lines → k.registers .sf = w →
    ∃ progress, run s.context k.memory = some progress ∧
      Tracks world lines s.scratch.pool pos (pos + em.lines.length) fuel ⟨pos, k⟩
        (pos + em.lines.length) progress

/-- An expression in a session. -/
theorem lowerExpr_passes (hu : (labelsOf lines).Nodup) {e : Expr} {a : Emission Scratch Register}
    (ha : lowerExpr s.symbols e s.scratch = .ok a) (hcall : e.isCallFree = true)
    (hcode : CodeAt lines pos a.lines) {k : Machine μ} (hw : k.registers .sf = w) :
    ∃ v m, e.eval world w s.context.symbols s.context.strings k.memory = some (v, m) ∧
      Computes world lines s.scratch.pool k pos a.lines a.value v m := by
  rw [← hw]
  exact lowerExpr_computes hu e ha hcall hcode k

theorem evaluateOption_tracks (hu : (labelsOf lines).Nodup) {e : Option Expr}
    {em : Emission Session Unit} (h : evaluateOption e s = .ok em)
    (hcall : Expr.isCallFree? e = true) (hcode : CodeAt lines pos em.lines) {k : Machine μ}
    (hw : k.registers .sf = w) :
    ∃ m, Stmt.effect? world w e s.context k.memory = some m ∧
      Tracks world lines s.scratch.pool pos (pos + em.lines.length) fuel ⟨pos, k⟩
        (pos + em.lines.length) (.normal m) := by
  cases e with
  | none =>
    rw [evaluateOption_none_ok h]
    exact ⟨k.memory, rfl, 0, k, .refl _, rfl, .refl _ k⟩
  | some e =>
    obtain ⟨a, ha, rfl⟩ := evaluateOnly_ok h
    obtain ⟨v, m, hev, n, k', hpath, -, hm, hkeep⟩ :=
      lowerExpr_passes world hu ha hcall hcode hw
    exact ⟨m, by simp [Stmt.effect?, hev], n, k', hpath, hm, hkeep⟩

/-- A branch goes on behind it if its condition holds. -/
theorem branch_tracks (hu : (labelsOf lines).Nodup) {cond : Expr} {ok otherwise : String}
    {em : Emission Session Unit} {target : Nat} (h : branch cond ok otherwise s = .ok em)
    (hcall : cond.isCallFree = true) (hcode : CodeAt lines pos em.lines)
    (htarget : lineOf lines otherwise = some target) {k : Machine μ} (hw : k.registers .sf = w) :
    ∃ holds m, Stmt.holds? world w (some cond) s.context k.memory = some (holds, m) ∧
      Tracks world lines s.scratch.pool pos (pos + em.lines.length) fuel ⟨pos, k⟩
        (if holds then pos + em.lines.length else target) (.normal m) := by
  obtain ⟨a, ha, rfl⟩ := branch_ok h
  obtain ⟨v, m, hev, n, k', hpath, hv, hm, hkeep⟩ :=
    lowerExpr_passes world hu ha hcall hcode.left hw
  -- the test is the one behind a conjunct: it leaves if the value is zero
  have hjump : CodeAt lines (pos + a.lines.length) (operandTest a.value otherwise ok .and) :=
    hcode.right
  obtain ⟨n', hpath'⟩ := path_operandTest world hu htarget hjump k'
  have hall := Path.append hpath hpath'
  refine ⟨decide (v ≠ 0), m, by simp [Stmt.holds?, hev], n + n', k', ?_, hm, hkeep⟩
  by_cases h0 : v = 0
  · simpa [h0, hv, LogicalOp.decides, operandTest] using hall
  · simpa [h0, hv, LogicalOp.decides, operandTest, Nat.add_assoc] using hall

theorem loopTest_tracks (hu : (labelsOf lines).Nodup) {cond : Option Expr} {done : String}
    {em : Emission Session Unit} {target : Nat} (h : loopTest done cond s = .ok em)
    (hcall : Expr.isCallFree? cond = true) (hcode : CodeAt lines pos em.lines)
    (htarget : lineOf lines done = some target) {k : Machine μ} (hw : k.registers .sf = w) :
    ∃ holds m, Stmt.holds? world w cond s.context k.memory = some (holds, m) ∧
      Tracks world lines s.scratch.pool pos (pos + em.lines.length) fuel ⟨pos, k⟩
        (if holds then pos + em.lines.length else target) (.normal m) := by
  cases cond with
  | none =>
    rw [pure_eq_ok_iff.1 h]
    exact ⟨true, k.memory, rfl, 0, k, .refl _, rfl, .refl _ k⟩
  | some cond => exact branch_tracks world fuel hu (loopTest_some_ok h) hcall hcode htarget hw

theorem lowerVariable_tracks (hu : (labelsOf lines).Nodup) (at_ : Position) (decl : Variable)
    (hcall : Expr.isCallFree? decl.init = true) :
    Follows world fuel lines w (lowerVariable at_ decl)
      (Stmt.exec world w fuel (.var at_ decl)) := by
  intro s em pos k h hcode hw
  cases hinit : decl.init with
  | none =>
    obtain ⟨symbol, hs⟩ := lowerVariable_after? h
    obtain ⟨p, table, -, -, rfl⟩ := lowerVariable_none_ok hinit h
    refine ⟨.normal k.memory, ?_, 0, k, .refl _, rfl, .refl _ k⟩
    simp [Stmt.exec, hs, hinit]
  | some init =>
    obtain ⟨a, p, table, address, ha, hp, hd, haddr, rfl⟩ := lowerVariable_some_ok hinit h
    have hdeclared : s.context.declareVariable? decl =
        some (p.value, ⟨table, p.state.frame, a.state.strings.length⟩) := by
      have ht : { s with scratch := a.state : Session }.context =
          s.context.skip (Expr.literals? decl.init).length := by
        rw [hinit]
        exact context_afterExpr ha
      exact context_declareVariable? ht hp hd
    rw [hinit] at hcall
    obtain ⟨v, m, hev, hcomp⟩ := lowerExpr_passes world hu ha hcall hcode.left hw
    obtain ⟨n, k', hpath, -, hm, hkeep⟩ := hcomp.store hcode
      (w := p.value.location world w decl.name)
      (by
        intro k' hkeep
        rw [locate_of_storeAddress? haddr k', hkeep.sf, hw])
    refine ⟨.normal (world.write m (p.value.location world w decl.name) v), ?_, n, k', hpath, hm,
      hkeep⟩
    simp [Stmt.exec, hdeclared, hinit, hev, isScalar_of_storeAddress? haddr]

/-- The end of a function takes its frame down. -/
theorem path_epilogue (hcode : CodeAt lines pos (epilogue.map .instruction))
    (k : Machine μ) :
    ∃ d : Config μ, Path world lines pos (pos + 2) 2 ⟨pos, k⟩ d ∧ d.line = pos + 2 ∧
      Returns world lines k none k.memory d := by
  have hrun : k.executeAll world [.mov Register.sp Register.sf, .pop .sf] =
      some (((k.set .sp (k.registers .sf)).set .sp (k.registers .sf + 2)).set .sf
        (world.read k.memory (k.registers .sf))) := by
    simp [Machine.executeAll, Machine.execute, Machine.assign, Machine.value]
  have hcode' : CodeAt lines pos
      ([Instruction.mov Register.sp Register.sf, .pop .sf].map .instruction ++
        [.instruction .ret]) := hcode
  refine ⟨_, path_code hcode'.left hrun, rfl, ?_, rfl, ?_, ?_, ?_⟩
  · exact hcode'.right.head
  · simp [Machine.registers_set_of_ne]
  · simp [Machine.registers_set_of_ne]
  · simp

theorem lowerReturn_tracks (hu : (labelsOf lines).Nodup) (at_ : Position) (value : Option Expr)
    (hcall : Expr.isCallFree? value = true) :
    Follows world fuel lines w (lowerReturn at_ value)
      (Stmt.exec world w fuel (.ret at_ value)) := by
  intro s em pos k h hcode hw
  cases value with
  | none =>
    obtain ⟨-, rfl⟩ := lowerReturn_none_ok h
    obtain ⟨d, hpath, hline, hret⟩ := path_epilogue world hcode k
    refine ⟨.returned none k.memory, by rw [Stmt.exec], 2, d, hpath.mono le_rfl ?_, ?_, ?_, hret⟩
    · simp [epilogue]
    · omega
    · simp [epilogue, hline]
  | some e =>
    obtain ⟨-, a, ha, rfl⟩ := lowerReturn_some_ok h
    obtain ⟨v, m, hev, n, k₁, hpath, hv, hm, hkeep⟩ :=
      lowerExpr_passes world hu ha hcall hcode.left hw
    have hmove := hcode.right
    have hset : Path world lines (pos + a.lines.length) (pos + a.lines.length + 1) 1
        ⟨pos + a.lines.length, k₁⟩ ⟨pos + a.lines.length + 1, k₁.set .rv v⟩ :=
      .one (by simp) (by simp) (step_execute hmove (by rw [← hv]; rfl))
    obtain ⟨d, hpath', hline, hret⟩ := path_epilogue world hmove.tail (k₁.set .rv v)
    refine ⟨.returned (some v) m, by simp [Stmt.exec, hev], n + (1 + 2), d, ?_, by omega, ?_, ?_⟩
    · have hlen : pos + a.lines.length + 1 + 2 ≤ pos + (a.lines ++
          (Instruction.mov Register.rv a.value :: epilogue).map Line.instruction).length := by
        simp [epilogue]
        omega
      dsimp only
      exact (hpath.mono le_rfl (by omega)).trans
        ((hset.mono (by omega) (by omega)).trans (hpath'.mono (by omega) hlen))
    · simp [epilogue, hline, Nat.add_assoc]
    · have hsf : (k₁.set .rv v).registers .sf = k.registers .sf := by
        rw [Machine.registers_set_of_ne _ (by decide), hkeep.sf]
      refine ⟨hret.line, hret.memory.trans hm, by simpa using hret.rv, ?_, ?_⟩
      · rw [hret.sp, hsf]
      · rw [hret.sf, hsf, Machine.memory_set, hm]

/-- The lines of a loop follow its rounds. -/
theorem lowerLoop_tracks (hu : (labelsOf lines).Nodup) {cond step : Option Expr} {body : Stmt}
    {em : Emission Session Unit} (h : lowerLoop cond step (lowerStmt body) s = .ok em)
    (hcond : Expr.isCallFree? cond = true) (hstep : Expr.isCallFree? step = true)
    (hdef : body.definitions = [])
    (hbody : Follows world fuel lines w (lowerStmt body) (body.exec world w fuel))
    (hcode : CodeAt lines pos em.lines) {k : Machine μ} (hw : k.registers .sf = w) :
    ∃ outer, body.after? (s.context.skip (Expr.literals? cond).length) = some outer ∧
      ∃ progress, iterate (Stmt.holds? world w cond s.context)
          (fun m => body.exec world w fuel (s.context.skip (Expr.literals? cond).length) m)
          (Stmt.effect? world w step outer) fuel k.memory = some progress ∧
        Tracks world lines s.scratch.pool pos (pos + em.lines.length) fuel ⟨pos, k⟩
          (pos + em.lines.length) progress := by
  obtain ⟨t, b, u, ht, hb, hu', rfl⟩ := lowerLoop_ok h
  have hctx := loopTest_context ht
  have hpool := (loopTest_emits ht).pool
  have hafter := lowerStmt_after? body hdef hb
  rw [context_skipLabels] at hctx
  rw [Session.pool_skipLabels] at hpool
  rw [hctx] at hafter
  refine ⟨b.state.context, hafter, ?_⟩
  -- the positions of the parts: label, test, body, step, jump and label
  have hctest : CodeAt lines (pos + 1) t.lines := hcode.right.left
  have hcbody : CodeAt lines (pos + 1 + t.lines.length) b.lines := hcode.right.right.left
  have hcstep : CodeAt lines (pos + 1 + t.lines.length + b.lines.length) u.lines :=
    hcode.right.right.right.left
  have hcend := hcode.right.right.right.right
  have htop := lineOf_of_codeAt hu hcode
  have hdone := lineOf_of_codeAt hu hcend.tail
  have hhi : pos + ([Line.label (flowLabel s.scratch.labels)] ++ (t.lines ++ (b.lines ++ (u.lines ++
      [Line.instruction (.jmp (flowLabel s.scratch.labels)),
        Line.label (flowLabel (s.scratch.labels + 1))])))).length =
      pos + 1 + t.lines.length + b.lines.length + u.lines.length + 1 + 1 := by
    simp
    omega
  rw [hhi]
  refine iterate_tracks (pos + 1 + t.lines.length) (pos + 1 + t.lines.length + b.lines.length)
    (fun k => step_label hcode) ?_ ?_ ?_ (fun k => step_jmp hcend htop)
    (fun k => step_label hcend.tail) ?_ fuel le_rfl k hw
  · intro k hw
    obtain ⟨holds, m, heq, htracks⟩ := loopTest_tracks world fuel hu ht hcond hctest hdone hw
    exact ⟨holds, m, heq, htracks.mono (by omega) (by omega)⟩
  · intro k hw
    obtain ⟨progress, heq, htracks⟩ := hbody hb hcbody hw
    rw [hctx] at heq
    rw [hpool] at htracks
    exact ⟨progress, heq, htracks.mono (by omega) (by omega)⟩
  · intro k hw
    obtain ⟨m, heq, htracks⟩ := evaluateOption_tracks world fuel hu hu' hstep hcstep hw
    rw [(lowerStmt_emits body hb).pool, hpool] at htracks
    exact ⟨m, heq, htracks.mono (by omega) (by omega)⟩
  · refine ⟨?_, ?_, ?_, ?_, ?_, ?_⟩ <;> simp <;> omega

theorem lowerStmt_ifThen_tracks (hu : (labelsOf lines).Nodup) {at_ : Position} {cond : Expr}
    {yes : Stmt} (hcond : cond.isCallFree = true)
    (hyes : Follows world fuel lines w (lowerStmt yes) (yes.exec world w fuel)) :
    Follows world fuel lines w (lowerStmt (.ifThen at_ cond yes))
      (Stmt.exec world w fuel (.ifThen at_ cond yes)) := by
  intro s em pos k h hcode hw
  obtain ⟨c, y, hc, hy, rfl⟩ := lowerStmt_ifThen_ok h
  have hend := hcode.right.right
  have hdone := lineOf_of_codeAt hu hend
  obtain ⟨holds, m, heq, n, k₁, hpath, rfl, hkeep⟩ :=
    branch_tracks world fuel hu hc hcond hcode.left hdone hw
  rw [context_skipLabels] at heq
  have hlen :
      pos + (c.lines ++ (y.lines ++ [Line.label (flowLabel (s.scratch.labels + 1))])).length =
      pos + c.lines.length + y.lines.length + 1 := by
    simp [Nat.add_assoc]
  dsimp only
  rw [hlen]
  have hfront := hpath.mono le_rfl (by omega : _ ≤ pos + c.lines.length + y.lines.length + 1)
  cases holds with
  | false =>
    refine ⟨.normal k₁.memory, by simp [Stmt.exec, heq], ?_⟩
    have hskip : Tracks world lines s.scratch.pool pos (pos + c.lines.length + y.lines.length + 1)
        fuel ⟨pos, k⟩ (pos + c.lines.length + y.lines.length) (.normal k₁.memory) :=
      ⟨n, k₁, hfront, rfl, hkeep⟩
    exact hskip.step (fun k => step_label hend) (by omega) (by omega)
  | true =>
    obtain ⟨progress, heq', htracks⟩ := hyes hy hcode.right.left (hkeep.sf.trans hw)
    rw [branch_context hc, context_skipLabels] at heq'
    rw [(branch_emits hc).pool, Session.pool_skipLabels] at htracks
    refine ⟨progress, by simp [Stmt.exec, heq, heq'], ?_⟩
    have hthrough := (htracks.mono (by omega) (by omega)).step (fun k => step_label hend)
      (by omega : pos ≤ _) (by omega : _ < pos + c.lines.length + y.lines.length + 1)
    exact (hthrough.before hfront hkeep).weaken (by omega)

theorem lowerStmt_ifElse_tracks (hu : (labelsOf lines).Nodup) {at_ : Position} {cond : Expr}
    {yes no : Stmt} (hcond : cond.isCallFree = true) (hdef : yes.definitions = [])
    (hyes : Follows world fuel lines w (lowerStmt yes) (yes.exec world w fuel))
    (hno : Follows world fuel lines w (lowerStmt no) (no.exec world w fuel)) :
    Follows world fuel lines w (lowerStmt (.ifElse at_ cond yes no))
      (Stmt.exec world w fuel (.ifElse at_ cond yes no)) := by
  intro s em pos k h hcode hw
  obtain ⟨c, y, z, hc, hy, hz, rfl⟩ := lowerStmt_ifElse_ok h
  -- the jump behind the first branch, the label in front of the second and the one behind it
  have hjump := hcode.right.right.left
  have hcno : CodeAt lines (pos + c.lines.length + y.lines.length + 2) z.lines :=
    hcode.right.right.right.left
  have hend : CodeAt lines (pos + c.lines.length + y.lines.length + 2 + z.lines.length) _ :=
    hcode.right.right.right.right
  have hother := lineOf_of_codeAt hu hjump.tail
  have hdone := lineOf_of_codeAt hu hend
  have hafter := lowerStmt_after? yes hdef hy
  have hctx := branch_context hc
  have hpool := (branch_emits hc).pool
  rw [context_skipLabels] at hctx
  rw [Session.pool_skipLabels] at hpool
  obtain ⟨holds, m, heq, n, k₁, hpath, rfl, hkeep⟩ :=
    branch_tracks world fuel hu hc hcond hcode.left hother hw
  rw [context_skipLabels] at heq
  have hlen : pos + (c.lines ++ (y.lines ++
      ([Line.instruction (.jmp (flowLabel (s.scratch.labels + 2))),
        Line.label (flowLabel (s.scratch.labels + 1))] ++
      (z.lines ++ [Line.label (flowLabel (s.scratch.labels + 2))])))).length =
      pos + c.lines.length + y.lines.length + 2 + z.lines.length + 1 := by
    simp
    omega
  dsimp only
  rw [hlen]
  have hfront := hpath.mono le_rfl
    (by omega : _ ≤ pos + c.lines.length + y.lines.length + 2 + z.lines.length + 1)
  cases holds with
  | false =>
    obtain ⟨progress, heq', htracks⟩ := hno hz hcno (hkeep.sf.trans hw)
    rw [hctx] at hafter
    rw [(lowerStmt_emits yes hy).pool, hpool] at htracks
    refine ⟨progress, by simp [Stmt.exec, heq, hafter, heq'], ?_⟩
    have hlabel : Path world lines pos
        (pos + c.lines.length + y.lines.length + 2 + z.lines.length + 1) (n + 1) ⟨pos, k⟩
        ⟨pos + c.lines.length + y.lines.length + 2, k₁⟩ :=
      hfront.trans (.one (by dsimp; omega) (by dsimp; omega) (step_label hjump.tail))
    have hthrough := (htracks.mono (by omega) (by omega)).step (fun k => step_label hend)
      (by omega : pos ≤ _)
      (by omega : _ < pos + c.lines.length + y.lines.length + 2 + z.lines.length + 1)
    exact (hthrough.before hlabel hkeep).weaken (by omega)
  | true =>
    obtain ⟨progress, heq', htracks⟩ := hyes hy hcode.right.left (hkeep.sf.trans hw)
    rw [hctx] at heq'
    rw [hpool] at htracks
    refine ⟨progress, by simp [Stmt.exec, heq, heq'], ?_⟩
    have hthrough := ((htracks.mono (by omega) (by omega)).step (fun k => step_jmp hjump hdone)
      (by omega : pos ≤ _)
      (by omega : _ < pos + c.lines.length + y.lines.length + 2 + z.lines.length + 1)).step
      (fun k => step_label hend) (by omega) (by omega)
    exact (hthrough.before hfront hkeep).weaken (by omega)

theorem lowerItems_tracks_of {items : List Stmt}
    (hitems : ∀ item ∈ items, item.isCallFree = true → item.definitions = [] →
      Follows world fuel lines w (lowerStmt item) (item.exec world w fuel))
    (hcall : Stmt.areCallFree items = true) (hdef : Stmt.definitionsOfAll items = []) :
    Follows world fuel lines w (lowerItems items) (Stmt.execAll world w fuel items) := by
  induction items with
  | nil =>
    intro s em pos k h _ _
    rw [lowerItems_nil_ok h]
    exact ⟨.normal k.memory, by rw [Stmt.execAll], 0, k, .refl _, rfl, .refl _ k⟩
  | cons item items ih =>
    intro s em pos k h hcode hw
    rw [List.forall_mem_cons] at hitems
    rw [Stmt.areCallFree, Bool.and_eq_true] at hcall
    rw [Stmt.definitionsOfAll, List.append_eq_nil_iff] at hdef
    obtain ⟨a, b, ha, hb, rfl⟩ := lowerItems_cons_ok h
    have hafter := lowerStmt_after? item hdef.1 ha
    have hlen : pos + (a.lines ++ b.lines).length = pos + a.lines.length + b.lines.length := by
      simp [Nat.add_assoc]
    obtain ⟨progress, heq, htracks⟩ := hitems.1 hcall.1 hdef.1 ha hcode.left hw
    have hrest : ∀ k' : Machine μ, s.scratch.pool.Keeps k k' →
        ∃ progress', Stmt.execAll world w fuel items a.state.context k'.memory = some progress' ∧
          Tracks world lines s.scratch.pool pos (pos + (a.lines ++ b.lines).length) fuel
            ⟨pos + a.lines.length, k'⟩ (pos + (a.lines ++ b.lines).length) progress' := by
      intro k' hkeep
      obtain ⟨progress', heq', htracks'⟩ := ih hitems.2 hcall.2 hdef.2 hb hcode.right
        (hkeep.sf.trans hw)
      rw [(lowerStmt_emits item ha).pool] at htracks'
      rw [hlen]
      exact ⟨progress', heq', htracks'.mono (by omega) le_rfl⟩
    obtain ⟨progress', heq', htracks'⟩ := (htracks.mono le_rfl (by omega)).andThen
      (fun m => Stmt.execAll world w fuel items a.state.context m) hrest
    exact ⟨progress', by simpa [Stmt.execAll, heq, hafter] using heq', htracks'⟩

/-- The lines of a statement without calls and function definitions follow its execution. -/
theorem lowerStmt_tracks (hu : (labelsOf lines).Nodup) (stmt : Stmt)
    (hcall : stmt.isCallFree = true) (hdef : stmt.definitions = []) :
    Follows world fuel lines w (lowerStmt stmt) (stmt.exec world w fuel) := by
  induction stmt using Stmt.induct with
  | var at_ decl =>
    rw [lowerStmt]
    exact lowerVariable_tracks world fuel hu at_ decl hcall
  | prototype at_ head =>
    intro s em pos k h hcode hw
    rw [lowerStmt, visit_apply] at h
    obtain ⟨-, table, -, rfl⟩ := declareFunction_ok h
    exact ⟨.normal k.memory, by rw [Stmt.exec], 0, k, .refl _, rfl, .refl _ k⟩
  | function at_ head body ih => simp [Stmt.definitions] at hdef
  | block at_ items ih =>
    intro s em pos k h hcode hw
    rw [lowerStmt, visit_apply] at h
    obtain ⟨hf, a, ha, rfl⟩ | ⟨hf, ha⟩ := inScope_ok h
    · have hitems := lowerItems_tracks_of world fuel ih hcall hdef ha hcode hw
      have henter : s.context.enter =
          { s with symbols := s.symbols.openScope : Session }.context := if_pos hf
      rw [Stmt.exec, henter]
      exact hitems
    · have henter : s.context.enter = s.context := if_neg (by simp [Session.context, hf])
      rw [Stmt.exec, henter]
      exact lowerItems_tracks_of world fuel ih hcall hdef ha hcode hw
  | expr at_ e =>
    intro s em pos k h hcode hw
    rw [lowerStmt, visit_apply] at h
    have heval : evaluateOption (some e) s = .ok em := h
    obtain ⟨m, heq, htracks⟩ := evaluateOption_tracks world fuel hu heval hcall hcode hw
    exact ⟨.normal m, by rw [Stmt.exec, heq]; rfl, htracks⟩
  | ifThen at_ cond yes ih =>
    rw [Stmt.isCallFree, Bool.and_eq_true] at hcall
    exact lowerStmt_ifThen_tracks world fuel hu hcall.1 (ih hcall.2 hdef)
  | ifElse at_ cond yes no ihy ihn =>
    simp only [Stmt.isCallFree, Bool.and_eq_true] at hcall
    rw [Stmt.definitions, List.append_eq_nil_iff] at hdef
    exact lowerStmt_ifElse_tracks world fuel hu hcall.1.1 hdef.1 (ihy hcall.1.2 hdef.1)
      (ihn hcall.2 hdef.2)
  | whileLoop at_ cond body ih =>
    intro s em pos k h hcode hw
    rw [Stmt.isCallFree, Bool.and_eq_true] at hcall
    rw [lowerStmt, visit_apply] at h
    obtain ⟨outer, -, hloop⟩ :=
      lowerLoop_tracks world fuel hu h hcall.1 rfl hdef (ih hcall.2 hdef) hcode hw
    rw [Stmt.exec]
    exact hloop
  | forLoop at_ init cond step body ih =>
    intro s em pos k h hcode hw
    simp only [Stmt.isCallFree, Bool.and_eq_true] at hcall
    obtain ⟨⟨⟨hinit, hcond⟩, hstep⟩, hbody⟩ := hcall
    obtain ⟨i, l, hi, hl, rfl⟩ := lowerStmt_forLoop_ok h
    obtain ⟨m, heq, n, k₁, hpath, rfl, hkeep⟩ :=
      evaluateOption_tracks world fuel hu hi hinit hcode.left hw
    obtain ⟨outer, hafter, progress, hiter, htracks⟩ :=
      lowerLoop_tracks world fuel hu hl hcond hstep hdef (ih hbody hdef) hcode.right
        (hkeep.sf.trans hw)
    rw [evaluateOption_context hi] at hafter hiter
    rw [(evaluateOption_emits hi).pool] at htracks
    have hlen : pos + (i.lines ++ l.lines).length = pos + i.lines.length + l.lines.length := by
      simp [Nat.add_assoc]
    refine ⟨progress, by simp [Stmt.exec, heq, hafter, hiter], ?_⟩
    dsimp only
    rw [hlen]
    exact ((htracks.mono (by omega) le_rfl).before (hpath.mono le_rfl (by omega)) hkeep).weaken
      (by omega)
  | ret at_ value =>
    rw [lowerStmt]
    exact lowerReturn_tracks world fuel hu at_ value hcall

end Lowering

/-- What the lines from `lo` up to `hi` do: they run forever, or to the line behind them, or to
a `ret` among them. -/
def RunsAs (world : World μ) (lines : List Line) (p : RegisterPool) (lo hi : Nat) (k : Machine μ) :
    Progress μ → Prop
  | .unfinished => ∀ n, ∃ d, Path world lines lo hi n ⟨lo, k⟩ d
  | .normal m => ∃ n k', Path world lines lo hi n ⟨lo, k⟩ ⟨hi, k'⟩ ∧ k'.memory = m ∧ p.Keeps k k'
  | .returned v m => ∃ n d, Path world lines lo hi n ⟨lo, k⟩ d ∧ lo ≤ d.line ∧ d.line < hi ∧
    Returns world lines k v m d

/-- Lines that follow an execution for every fuel do what it does. -/
theorem runsAs_of_tracks {world : World μ} {lines : List Line} {p : RegisterPool} {lo hi : Nat}
    {k : Machine μ} {progress : Progress μ} (enough : Nat)
    (h : ∀ fuel ≥ enough, Tracks world lines p lo hi fuel ⟨lo, k⟩ hi progress) :
    RunsAs world lines p lo hi k progress := by
  cases progress with
  | unfinished =>
    intro n
    obtain ⟨n', d, hn, hpath⟩ := h (max n enough) (Nat.le_max_right n enough)
    obtain ⟨d', hd, -⟩ := hpath.take ((Nat.le_max_left n enough).trans hn)
    exact ⟨d', hd⟩
  | normal m => exact h enough le_rfl
  | returned v m => exact h enough le_rfl

open Lowering in
/-- A statement without calls and function definitions comes to exactly one end or runs forever,
and its lines, in any listing with distinct labels, do the same: run through they leave the memory
that the execution leaves and the registers in use, and where it returns they reach a `ret` with the
frame taken down. The names behind the statement stand for what the session says. -/
theorem lowerStmt_preserves_meaning (world : World μ) (stmt : Stmt) (s : Session)
    (em : Emission Session Unit) (before after : List Line) (k : Machine μ)
    (h : lowerStmt stmt s = .ok em) (hcall : stmt.isCallFree = true)
    (hdef : stmt.definitions = []) (hu : (labelsOf (before ++ (em.lines ++ after))).Nodup) :
    (∃! progress, stmt.Behaves world (k.registers .sf) s.context k.memory progress) ∧
      (∀ progress, stmt.Behaves world (k.registers .sf) s.context k.memory progress →
        RunsAs world (before ++ (em.lines ++ after)) s.scratch.pool before.length
          (before.length + em.lines.length) k progress) ∧
      stmt.after? s.context = some em.state.context := by
  have hcode : CodeAt (before ++ (em.lines ++ after)) before.length em.lines :=
    ⟨before, after, rfl, rfl⟩
  have htracks (fuel : Nat) := lowerStmt_tracks world fuel hu stmt hcall hdef h hcode (k := k) rfl
  refine ⟨?_, ?_, lowerStmt_after? stmt hdef h⟩
  · obtain ⟨progress, hprogress⟩ := Stmt.exists_behaves world (k.registers .sf) fun fuel =>
      (htracks fuel).imp fun _ => And.left
    exact ⟨progress, hprogress, fun _ hother => hother.unique hprogress⟩
  · rintro progress ⟨enough, henough⟩
    refine runsAs_of_tracks enough fun fuel hle => ?_
    obtain ⟨progress', hexec, hfollow⟩ := htracks fuel
    rw [henough fuel hle] at hexec
    cases hexec
    exact hfollow

/-- `{ while (x) x = x - 1; return x; }` -/
def countdown : Stmt :=
  .block default
    [.whileLoop default (.name default "x") (.expr default (.assign default (.name default "x")
      (.binary default .sub (.name default "x") (.number default 1)))),
     .ret default (some (.name default "x"))]

/-- The lines of `countdown`. -/
def countdownLines : List Line :=
  [.label "L0",
   .instruction (.mov (Register.general 0) (Address.label "x")),
   .instruction (.jnz (.general 0) "L2"),
   .instruction (.jmp "L1"),
   .label "L2",
   .instruction (.mov (Register.general 0) (Address.label "x")),
   .instruction (.mov (Register.general 1) (.immediate 1)),
   .instruction (.sub (.general 0) (Register.general 1)),
   .instruction (.mov (Address.label "x") (Register.general 0)),
   .instruction (.jmp "L0"),
   .label "L1",
   .instruction (.mov (Register.general 0) (Address.label "x")),
   .instruction (.mov Register.rv (Register.general 0)),
   .instruction (.mov Register.sp Register.sf),
   .instruction (.pop .sf),
   .instruction .ret]

open Lowering in
/-- In a function, where `x` is a variable of the file that holds 2, the lines of `countdown` reach
the `ret` after two rounds. -/
theorem lowerStmt_preserves_meaning_countdown :
    lowerStmt countdown ⟨.empty, ⟨[("x", .static .int false)], []⟩, some ⟨"f", 0⟩⟩ =
        .ok ⟨(), countdownLines,
          ⟨⟨.empty, 3, []⟩, ⟨[("x", .static .int false)], []⟩, some ⟨"f", 0⟩⟩⟩ ∧
      (labelsOf ([.label "f"] ++ (countdownLines ++ []))).Nodup ∧
      RunsAs (World.flat fun _ => 100) ([.label "f"] ++ (countdownLines ++ [])) .empty 1 17
        ⟨fun _ => 0, (0, 0), fun _ => 2⟩
        (.returned (some 0) (Function.update (Function.update (fun _ => 2) 100 1) 100 0)) := by
  have hlower : lowerStmt countdown
      ⟨.empty, ⟨[("x", .static .int false)], []⟩, some ⟨"f", 0⟩⟩ =
      .ok ⟨(), countdownLines,
        ⟨⟨.empty, 3, []⟩, ⟨[("x", .static .int false)], []⟩, some ⟨"f", 0⟩⟩⟩ := by
    decide +kernel
  have hu : (labelsOf ([.label "f"] ++ (countdownLines ++ []))).Nodup := by decide
  obtain ⟨-, hruns, -⟩ := lowerStmt_preserves_meaning (World.flat fun _ => 100) countdown _ _
    [.label "f"] [] ⟨fun _ => 0, (0, 0), fun _ => 2⟩ hlower (by decide) (by decide) hu
  refine ⟨hlower, hu, hruns _ ⟨3, fun fuel hle => ?_⟩⟩
  refine Stmt.exec_mono _ _ hle countdown _ _ _ nofun ?_
  rfl

end WordC
