import WordC.Diagnostic
import WordC.Listing
import WordC.Stmt

/-!
# Emitting code

An emitter says step by step what code generation does on a state: it changes the state or emits
lines, but not both at once. Run from a state it either fails with a diagnostic or gives a value,
the lines it emits and the state it leaves (`Emitter.run`). The lines of a sequence are those of its
parts one after the other, so what a phrase emits does not depend on what was emitted before it.
-/

namespace WordC

/-- What a successful emitter gives. -/
structure Emission (σ α : Type) where
  value : α
  lines : List Line
  state : σ
deriving DecidableEq

/-- The steps of code generation on a state `σ`, up to a value. -/
inductive Emitter : Type → Type → Type 1
  /-- Change the state, or fail. -/
  | change {σ α : Type} (f : σ → Except Diagnostic (α × σ)) : Emitter σ α
  /-- Emit lines. -/
  | emitLines {σ : Type} (lines : List Line) : Emitter σ Unit
  | protected bind {σ α β : Type} (x : Emitter σ α) (f : α → Emitter σ β) : Emitter σ β
  /-- Do what a statement asks for. -/
  | visit {σ : Type} (stmt : Stmt) (x : Emitter σ Unit) : Emitter σ Unit
  /-- Do `x` and then `y`, but put the lines of `x` behind those of `y`. -/
  | behind {σ : Type} (x y : Emitter σ Unit) : Emitter σ Unit
  /-- Work on a part of the state. -/
  | focus {σ τ α : Type} (part : τ → σ) (put : σ → τ → τ) (x : Emitter σ α) : Emitter τ α

namespace Emitter

variable {σ τ α β : Type}

/-- Run an emitter. -/
protected def run : {σ α : Type} → Emitter σ α → σ → Except Diagnostic (Emission σ α)
  | _, _, change f, s => do
    let (a, s') ← f s
    pure ⟨a, [], s'⟩
  | _, _, emitLines lines, s => pure ⟨(), lines, s⟩
  | _, _, .bind x f, s => do
    let first ← x.run s
    let second ← (f first.value).run first.state
    pure ⟨second.value, first.lines ++ second.lines, second.state⟩
  | _, _, visit _ x, s => x.run s
  | _, _, behind x y, s => do
    let back ← x.run s
    let front ← y.run back.state
    pure ⟨(), front.lines ++ back.lines, front.state⟩
  | _, _, focus part put x, t => do
    let e ← x.run (part t)
    pure ⟨e.value, e.lines, put e.state t⟩

instance : CoeFun (Emitter σ α) fun _ => σ → Except Diagnostic (Emission σ α) := ⟨Emitter.run⟩

protected def pure (a : α) : Emitter σ α := change fun s => .ok (a, s)

instance : Monad (Emitter σ) where
  pure := Emitter.pure
  bind := Emitter.bind

theorem pure_apply (a : α) (s : σ) : (pure a : Emitter σ α) s = .ok ⟨a, [], s⟩ := rfl

theorem bind_apply (x : Emitter σ α) (f : α → Emitter σ β) (s : σ) :
    (x >>= f) s = match x s with
      | .error d => .error d
      | .ok first =>
        match f first.value first.state with
        | .error d => .error d
        | .ok second => .ok ⟨second.value, first.lines ++ second.lines, second.state⟩ := by
  change (Emitter.bind x f).run s = _
  rw [Emitter.run]
  cases x s with
  | error d => rfl
  | ok first =>
    cases h : f first.value first.state <;> simp [h, bind, Except.bind, pure, Except.pure]

/-- A sequence succeeds exactly when both parts do; its lines are those of both. -/
theorem bind_eq_ok_iff {x : Emitter σ α} {f : α → Emitter σ β} {s : σ} {e : Emission σ β} :
    (x >>= f) s = .ok e ↔ ∃ first second, x s = .ok first ∧
      f first.value first.state = .ok second ∧
      e = ⟨second.value, first.lines ++ second.lines, second.state⟩ := by
  rw [bind_apply]
  cases hx : x s with
  | error d => simp
  | ok first =>
    cases hf : f first.value first.state with
    | error d => simp [hf]
    | ok second =>
      constructor
      · intro h
        simp only [hf, Except.ok.injEq] at h
        exact ⟨first, second, rfl, hf, h.symm⟩
      · rintro ⟨_, _, h, h', rfl⟩
        cases h
        rw [hf] at h'
        cases h'
        simp [hf]

/-- A sequence fails exactly when its first part does, or its second after the first. -/
theorem bind_eq_error_iff {x : Emitter σ α} {f : α → Emitter σ β} {s : σ} {d : Diagnostic} :
    (x >>= f) s = .error d ↔ x s = .error d ∨
      ∃ first, x s = .ok first ∧ f first.value first.state = .error d := by
  rw [bind_apply]
  cases hx : x s with
  | error d => simp
  | ok first => cases hf : f first.value first.state <;> simp [hf]

theorem change_apply (f : σ → Except Diagnostic (α × σ)) (s : σ) :
    change f s = match f s with
      | .error d => .error d
      | .ok out => .ok ⟨out.1, [], out.2⟩ := by
  rw [Emitter.run]
  cases f s <;> rfl

theorem emitLines_apply (lines : List Line) (s : σ) :
    (emitLines lines : Emitter σ Unit) s = .ok ⟨(), lines, s⟩ := rfl

theorem visit_apply (stmt : Stmt) (x : Emitter σ Unit) (s : σ) : visit stmt x s = x s := rfl

theorem behind_apply (x y : Emitter σ Unit) (s : σ) :
    behind x y s = match x s with
      | .error d => .error d
      | .ok back =>
        match y back.state with
        | .error d => .error d
        | .ok front => .ok ⟨(), front.lines ++ back.lines, front.state⟩ := by
  rw [Emitter.run]
  cases x s with
  | error d => rfl
  | ok back => cases h : y back.state <;> simp [h, bind, Except.bind, pure, Except.pure]

theorem focus_apply (part : τ → σ) (put : σ → τ → τ) (x : Emitter σ α) (t : τ) :
    focus part put x t = match x (part t) with
      | .error d => .error d
      | .ok e => .ok ⟨e.value, e.lines, put e.state t⟩ := by
  rw [Emitter.run]
  cases x (part t) <;> rfl

/-- Fail with a cause at a position. -/
def fail (pos : Position) (cause : Cause) : Emitter σ α := change fun _ => .error ⟨pos, cause⟩

/-- The value of a result, with a position for its cause if it has none. -/
def ofExcept (pos : Position) : Except Cause α → Emitter σ α
  | .ok a => pure a
  | .error cause => fail pos cause

/-- The state. -/
def get : Emitter σ σ := change fun s => .ok (s, s)

/-- Change the state. -/
def modify (f : σ → σ) : Emitter σ Unit := change fun s => .ok ((), f s)

/-- Emit a label. -/
def emitLabel (name : String) : Emitter σ Unit := emitLines [.label name]

/-- Emit an instruction. -/
def emit (i : Instruction) : Emitter σ Unit := emitLines [.instruction i]

end Emitter

end WordC
