import WordC.Lowering.Stmt
import WordC.Proofs.Semantics.Expr

/-!
# The meaning of statements

What a statement without calls and function definitions does to the memory. A `Context` says what
the names in front of the statement stand for, which slots of the frame are taken and how many
string literals came before; it does not depend on the run, and `Stmt.after?` gives the one behind
the statement.

* A variable gets the next slot of the frame in a function, and the label of its name outside. Its
  initial value is evaluated before its name is declared.
* A block has a scope of its own, in a function; the slots of its variables stay taken behind it.
* A condition holds if its value is not zero. A loop tests it before every round; `for` evaluates
  its first expression once and its last one behind the body of every round, where the variables
  that the body declared are visible.
* `return` ends the function, from however deep inside.

A statement may run forever, so `Stmt.exec` runs it with at most `fuel` rounds for each loop, and
`Stmt.Behaves` is what it does with fuel enough.
-/

namespace WordC

variable {μ : Type}

/-- What is known in front of a statement. -/
structure Context where
  symbols : SymbolTable
  /-- The frame of the function at hand, `none` outside of functions. -/
  frame : Option Frame
  /-- The number of the next string literal. -/
  strings : Nat

namespace Context

variable (ctx : Context)

/-- The context behind so many string literals. -/
def skip (n : Nat) : Context := { ctx with strings := ctx.strings + n }

@[simp] theorem skip_zero : ctx.skip 0 = ctx := rfl

/-- The context at the start of a block. -/
def enter : Context :=
  if ctx.frame.isSome then { ctx with symbols := ctx.symbols.openScope } else ctx

/-- The context behind a block, from the one at its end. -/
def leave (inner : Context) : Context :=
  if ctx.frame.isSome then { inner with symbols := inner.symbols.closeScope } else inner

/-- The next place for a variable: a slot of the frame, or outside of functions a label. -/
def place? (ty : Ty) (constant : Bool) : Option (Symbol × Context) :=
  match ctx.frame with
  | none => some (.static ty constant, ctx)
  | some frame => do
    let bytes ← { frame with words := frame.words + ty.words : Frame }.bytes?
    some (.stack (Lowering.localOffset bytes) ty constant,
      { ctx with frame := some { frame with words := frame.words + ty.words } })

/-- The context with a name declared. -/
def declare? (name : String) (symbol : Symbol) : Option Context := do
  let symbols ← (ctx.symbols.declare name symbol).toOption
  some { ctx with symbols }

/-- The symbol of a variable and the context behind its declaration. -/
def declareVariable? (decl : Variable) : Option (Symbol × Context) := do
  let (symbol, ctx) ← (ctx.skip (Expr.literals? decl.init).length).place? decl.ty decl.constant
  let ctx ← ctx.declare? decl.name symbol
  some (symbol, ctx)

end Context

/-- How far the execution of a statement came. -/
inductive Progress (μ : Type)
  /-- The fuel was used up. -/
  | unfinished
  /-- The statement was run through. -/
  | normal (memory : μ)
  /-- The function returned. -/
  | returned (value : Option Word) (memory : μ)

/-- Go on where a statement was run through. -/
def Progress.andThen (progress : Progress μ) (next : μ → Option (Progress μ)) :
    Option (Progress μ) :=
  match progress with
  | .unfinished => some .unfinished
  | .normal m => next m
  | .returned v m => some (.returned v m)

/-- Rounds of a loop as long as the test holds. -/
def iterate (test : μ → Option (Bool × μ)) (body : μ → Option (Progress μ)) (step : μ → Option μ) :
    Nat → μ → Option (Progress μ)
  | 0, _ => some .unfinished
  | fuel + 1, m => do
    let (holds, m) ← test m
    if holds then
      let progress ← body m
      progress.andThen fun m => do
        let m ← step m
        iterate test body step fuel m
    else some (.normal m)

namespace Stmt

mutual

/-- The context behind a statement. -/
def after? : Stmt → Context → Option Context
  | .var _ decl, ctx => (ctx.declareVariable? decl).map Prod.snd
  | .prototype _ head, ctx =>
    if ctx.frame.isSome then none else ctx.declare? head.name (Lowering.functionSymbol head false)
  | .function _ _ _, _ => none
  | .block _ items, ctx => (afterAll? items ctx.enter).map ctx.leave
  | .expr _ e, ctx => some (ctx.skip e.literals.length)
  | .ifThen _ cond yes, ctx => after? yes (ctx.skip cond.literals.length)
  | .ifElse _ cond yes no, ctx => do
    let ctx ← after? yes (ctx.skip cond.literals.length)
    after? no ctx
  | .whileLoop _ cond body, ctx => after? body (ctx.skip cond.literals.length)
  | .forLoop _ init cond step body, ctx => do
    let ctx ← after? body
      ((ctx.skip (Expr.literals? init).length).skip (Expr.literals? cond).length)
    some (ctx.skip (Expr.literals? step).length)
  | .ret _ value, ctx =>
    if ctx.frame.isSome then some (ctx.skip (Expr.literals? value).length) else none

/-- The context behind statements one after the other. -/
def afterAll? : List Stmt → Context → Option Context
  | [], ctx => some ctx
  | item :: items, ctx => do
    let ctx ← after? item ctx
    afterAll? items ctx

end

section Execution

variable (world : World μ) (frame : Word)

/-- The memory after an expression that may be missing. -/
def effect? (e : Option Expr) (ctx : Context) (m : μ) : Option μ :=
  match e with
  | none => some m
  | some e => (e.eval world frame ctx.symbols ctx.strings m).map Prod.snd

/-- Whether a condition holds, and the memory after it; a missing one does. -/
def holds? (cond : Option Expr) (ctx : Context) (m : μ) : Option (Bool × μ) :=
  match cond with
  | none => some (true, m)
  | some e => (e.eval world frame ctx.symbols ctx.strings m).map fun (v, m) => (v ≠ 0, m)

mutual

/-- Run a statement with at most `fuel` rounds for each loop. -/
def exec (fuel : Nat) : Stmt → Context → μ → Option (Progress μ)
  | .var _ decl, ctx, m => do
    let (symbol, _) ← ctx.declareVariable? decl
    match decl.init with
    | none => some (.normal m)
    | some init =>
      let (v, m) ← init.eval world frame ctx.symbols ctx.strings m
      if symbol.isScalar then
        some (.normal (world.write m (symbol.location world frame decl.name) v))
      else none
  | .prototype _ _, _, m => some (.normal m)
  | .function _ _ _, _, _ => none
  | .block _ items, ctx, m => execAll fuel items ctx.enter m
  | .expr _ e, ctx, m => (effect? world frame (some e) ctx m).map .normal
  | .ifThen _ cond yes, ctx, m => do
    let (holds, m) ← holds? world frame (some cond) ctx m
    if holds then exec fuel yes (ctx.skip cond.literals.length) m else some (.normal m)
  | .ifElse _ cond yes no, ctx, m => do
    let (holds, m) ← holds? world frame (some cond) ctx m
    if holds then exec fuel yes (ctx.skip cond.literals.length) m
    else
      let ctx ← after? yes (ctx.skip cond.literals.length)
      exec fuel no ctx m
  | .whileLoop _ cond body, ctx, m =>
    iterate (holds? world frame (some cond) ctx)
      (fun m => exec fuel body (ctx.skip cond.literals.length) m) some fuel m
  | .forLoop _ init cond step body, ctx, m => do
    let m ← effect? world frame init ctx m
    let ctx := ctx.skip (Expr.literals? init).length
    let inner := ctx.skip (Expr.literals? cond).length
    let outer ← after? body inner
    iterate (holds? world frame cond ctx) (fun m => exec fuel body inner m)
      (effect? world frame step outer) fuel m
  | .ret _ none, _, m => some (.returned none m)
  | .ret _ (some e), ctx, m =>
    (e.eval world frame ctx.symbols ctx.strings m).map fun (v, m) => .returned (some v) m

/-- Run statements one after the other. -/
def execAll (fuel : Nat) : List Stmt → Context → μ → Option (Progress μ)
  | [], _, m => some (.normal m)
  | item :: items, ctx, m => do
    let progress ← exec fuel item ctx m
    progress.andThen fun m => do
      let ctx ← after? item ctx
      execAll fuel items ctx m

end

/-- What a statement does, given fuel enough; `unfinished` means that no fuel is. -/
def Behaves (stmt : Stmt) (ctx : Context) (m : μ) (progress : Progress μ) : Prop :=
  ∃ enough, ∀ fuel ≥ enough, stmt.exec world frame fuel ctx m = some progress

end Execution

end Stmt

/-! ### More fuel -/

theorem Progress.andThen_mono {progress progress' : Progress μ}
    {next next' : μ → Option (Progress μ)}
    (hnext : ∀ m, next m = some progress' → next' m = some progress')
    (hfin : progress' ≠ .unfinished) (h : progress.andThen next = some progress') :
    progress ≠ .unfinished ∧ progress.andThen next' = some progress' := by
  cases progress with
  | unfinished =>
    cases h
    exact absurd rfl hfin
  | normal m => exact ⟨nofun, hnext m h⟩
  | returned v m => exact ⟨nofun, h⟩

theorem iterate_mono {test : μ → Option (Bool × μ)} {body body' : μ → Option (Progress μ)}
    {step : μ → Option μ} {progress : Progress μ} (hfin : progress ≠ .unfinished)
    (hbody : ∀ m (progress : Progress μ), progress ≠ .unfinished → body m = some progress →
      body' m = some progress) {rounds : Nat} :
    ∀ {rounds' : Nat} {m : μ}, rounds ≤ rounds' → iterate test body step rounds m = some progress →
      iterate test body' step rounds' m = some progress := by
  induction rounds with
  | zero =>
    intro _ _ _ h
    cases h
    exact absurd rfl hfin
  | succ rounds ih =>
    intro rounds' m hle h
    obtain ⟨rounds', rfl⟩ : ∃ r, rounds' = r + 1 := ⟨rounds' - 1, by omega⟩
    rw [iterate, Option.bind_eq_bind, Option.bind_eq_some_iff] at h
    obtain ⟨⟨holds, m'⟩, htest, h⟩ := h
    rw [iterate, htest]
    cases holds with
    | false => exact h
    | true =>
      simp only [if_true, Option.bind_eq_bind, Option.bind_eq_some_iff] at h
      obtain ⟨inner, hinner, h⟩ := h
      have hnext : ∀ m, ((step m).bind fun m => iterate test body step rounds m) = some progress →
          ((step m).bind fun m => iterate test body' step rounds' m) = some progress := by
        intro m hm
        obtain ⟨m'', hstep, hm⟩ := Option.bind_eq_some_iff.1 hm
        exact Option.bind_eq_some_iff.2 ⟨m'', hstep, ih (by omega) hm⟩
      obtain ⟨hne, h'⟩ := Progress.andThen_mono hnext hfin h
      have hbody' := hbody m' inner hne hinner
      simpa [hbody'] using h'

namespace Stmt

variable (world : World μ) (frame : Word) {fuel fuel' : Nat}

theorem execAll_mono_of {items : List Stmt}
    (hitems : ∀ item ∈ items, ∀ ctx m (progress : Progress μ), progress ≠ .unfinished →
      item.exec world frame fuel ctx m = some progress →
      item.exec world frame fuel' ctx m = some progress) :
    ∀ ctx m (progress : Progress μ), progress ≠ .unfinished →
      execAll world frame fuel items ctx m = some progress →
      execAll world frame fuel' items ctx m = some progress := by
  induction items with
  | nil =>
    intro ctx m progress _ h
    rwa [execAll] at h ⊢
  | cons item items ih =>
    intro ctx m progress hfin h
    rw [List.forall_mem_cons] at hitems
    rw [execAll, Option.bind_eq_bind, Option.bind_eq_some_iff] at h
    obtain ⟨inner, hinner, h⟩ := h
    have hnext : ∀ m, ((after? item ctx).bind fun ctx => execAll world frame fuel items ctx m) =
        some progress →
        ((after? item ctx).bind fun ctx => execAll world frame fuel' items ctx m) =
        some progress := by
      intro m hm
      obtain ⟨ctx', hctx, hm⟩ := Option.bind_eq_some_iff.1 hm
      exact Option.bind_eq_some_iff.2 ⟨ctx', hctx, ih hitems.2 ctx' m progress hfin hm⟩
    obtain ⟨hne, h'⟩ := Progress.andThen_mono hnext hfin h
    rw [execAll, hitems.1 ctx m inner hne hinner]
    exact h'

/-- More fuel keeps the end that an execution came to. -/
theorem exec_mono (hle : fuel ≤ fuel') (stmt : Stmt) :
    ∀ ctx m (progress : Progress μ), progress ≠ .unfinished →
      stmt.exec world frame fuel ctx m = some progress →
      stmt.exec world frame fuel' ctx m = some progress := by
  induction stmt using Stmt.induct with
  | var pos decl =>
    intro ctx m progress _ h
    rwa [exec] at h ⊢
  | prototype pos head =>
    intro ctx m progress _ h
    rwa [exec] at h ⊢
  | function pos head body ih =>
    intro ctx m progress _ h
    cases h
  | block pos items ih =>
    intro ctx m progress hfin h
    rw [exec] at h ⊢
    exact execAll_mono_of world frame ih _ m progress hfin h
  | expr pos e =>
    intro ctx m progress _ h
    rwa [exec] at h ⊢
  | ifThen pos cond yes ih =>
    intro ctx m progress hfin h
    rw [exec, Option.bind_eq_bind, Option.bind_eq_some_iff] at h ⊢
    obtain ⟨⟨holds, m'⟩, hcond, h⟩ := h
    refine ⟨(holds, m'), hcond, ?_⟩
    cases holds with
    | false => exact h
    | true => exact ih _ m' progress hfin h
  | ifElse pos cond yes no ihy ihn =>
    intro ctx m progress hfin h
    rw [exec, Option.bind_eq_bind, Option.bind_eq_some_iff] at h ⊢
    obtain ⟨⟨holds, m'⟩, hcond, h⟩ := h
    refine ⟨(holds, m'), hcond, ?_⟩
    cases holds with
    | false =>
      simp only [if_neg Bool.false_ne_true, Option.bind_eq_bind, Option.bind_eq_some_iff] at h ⊢
      obtain ⟨ctx', hctx, h⟩ := h
      exact ⟨ctx', hctx, ihn ctx' m' progress hfin h⟩
    | true => exact ihy _ m' progress hfin h
  | whileLoop pos cond body ih =>
    intro ctx m progress hfin h
    rw [exec] at h ⊢
    exact iterate_mono hfin (fun m p hp hm => ih _ m p hp hm) hle h
  | forLoop pos init cond step body ih =>
    intro ctx m progress hfin h
    simp only [exec, Option.bind_eq_bind, Option.bind_eq_some_iff] at h ⊢
    obtain ⟨m', hinit, outer, hafter, h⟩ := h
    exact ⟨m', hinit, outer, hafter, iterate_mono hfin (fun m p hp hm => ih _ m p hp hm) hle h⟩
  | ret pos value =>
    intro ctx m progress _ h
    cases value with
    | none => rwa [exec] at h ⊢
    | some e => rwa [exec] at h ⊢

/-- A statement does not come to two different ends. -/
theorem Behaves.unique {world : World μ} {frame : Word} {stmt : Stmt} {ctx : Context} {m : μ}
    {progress progress' : Progress μ} (h : stmt.Behaves world frame ctx m progress)
    (h' : stmt.Behaves world frame ctx m progress') : progress = progress' := by
  obtain ⟨n, hn⟩ := h
  obtain ⟨n', hn'⟩ := h'
  have hmax := hn (max n n') (Nat.le_max_left n n')
  rw [hn' (max n n') (Nat.le_max_right n n')] at hmax
  exact (Option.some.inj hmax).symm

/-- A statement that has a meaning with every fuel comes to an end or runs forever. -/
theorem exists_behaves {stmt : Stmt} {ctx : Context} {m : μ}
    (h : ∀ fuel, ∃ progress, stmt.exec world frame fuel ctx m = some progress) :
    ∃ progress, stmt.Behaves world frame ctx m progress := by
  by_cases hend : ∃ fuel progress, progress ≠ .unfinished ∧
      stmt.exec world frame fuel ctx m = some progress
  · obtain ⟨enough, progress, hfin, hexec⟩ := hend
    exact ⟨progress, enough,
      fun fuel hle => exec_mono world frame hle stmt ctx m progress hfin hexec⟩
  · refine ⟨.unfinished, 0, fun fuel _ => ?_⟩
    obtain ⟨progress, hexec⟩ := h fuel
    by_cases hfin : progress = .unfinished
    · rw [hexec, hfin]
    · exact absurd ⟨fuel, progress, hfin, hexec⟩ hend

end Stmt

end WordC
