import WordC.Lowering.Emitter

/-!
# Successful runs of emitters

When the primitive emitters succeed and what they give. With `Emitter.bind_eq_ok_iff` these take a
sequence apart.
-/

namespace WordC.Emitter

variable {σ τ α β : Type} {s : σ}

theorem change_eq_ok_iff {f : σ → Except Diagnostic (α × σ)} {em : Emission σ α} :
    change f s = .ok em ↔ ∃ out, f s = .ok out ∧ em = ⟨out.1, [], out.2⟩ := by
  rw [change_apply]
  cases f s with
  | error d => simp
  | ok out => simp [eq_comm]

@[simp] theorem pure_eq_ok_iff {a : α} {em : Emission σ α} :
    (pure a : Emitter σ α) s = .ok em ↔ em = ⟨a, [], s⟩ := by
  rw [pure_apply, Except.ok.injEq, eq_comm]

@[simp] theorem fail_eq_ok_iff {pos : Position} {cause : Cause} {em : Emission σ α} :
    (fail pos cause : Emitter σ α) s = .ok em ↔ False := by
  simp [fail, change_eq_ok_iff]

@[simp] theorem ofExcept_eq_ok_iff {pos : Position} {result : Except Cause α} {em : Emission σ α} :
    (ofExcept pos result : Emitter σ α) s = .ok em ↔ ∃ a, result = .ok a ∧ em = ⟨a, [], s⟩ := by
  cases result with
  | error cause => simp [ofExcept]
  | ok a => simp [ofExcept]

@[simp] theorem get_eq_ok_iff {em : Emission σ σ} :
    (get : Emitter σ σ) s = .ok em ↔ em = ⟨s, [], s⟩ := by
  simp [get, change_eq_ok_iff]

@[simp] theorem modify_eq_ok_iff {f : σ → σ} {em : Emission σ Unit} :
    modify f s = .ok em ↔ em = ⟨(), [], f s⟩ := by
  simp [modify, change_eq_ok_iff]

@[simp] theorem emitLines_eq_ok_iff {lines : List Line} {em : Emission σ Unit} :
    emitLines lines s = .ok em ↔ em = ⟨(), lines, s⟩ := by
  change Except.ok _ = _ ↔ _
  rw [Except.ok.injEq, eq_comm]

@[simp] theorem emitLabel_eq_ok_iff {name : String} {em : Emission σ Unit} :
    emitLabel name s = .ok em ↔ em = ⟨(), [.label name], s⟩ := emitLines_eq_ok_iff

@[simp] theorem emit_eq_ok_iff {i : Instruction} {em : Emission σ Unit} :
    emit i s = .ok em ↔ em = ⟨(), [.instruction i], s⟩ := emitLines_eq_ok_iff

@[simp] theorem behind_eq_ok_iff {x y : Emitter σ Unit} {em : Emission σ Unit} :
    behind x y s = .ok em ↔ ∃ back front, x s = .ok back ∧ y back.state = .ok front ∧
      em = ⟨(), front.lines ++ back.lines, front.state⟩ := by
  rw [behind_apply]
  cases x s with
  | error d => simp
  | ok back => cases hy : y back.state <;> simp [hy, eq_comm]

@[simp] theorem focus_eq_ok_iff {part : τ → σ} {put : σ → τ → τ} {x : Emitter σ α} {t : τ}
    {em : Emission τ α} :
    focus part put x t = .ok em ↔ ∃ inner, x (part t) = .ok inner ∧
      em = ⟨inner.value, inner.lines, put inner.state t⟩ := by
  rw [focus_apply]
  cases x (part t) with
  | error d => simp
  | ok inner => simp [eq_comm]

end WordC.Emitter
