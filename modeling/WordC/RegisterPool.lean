import WordC.Machine.Register

/-!
# The pool of general registers

Which general registers hold a value that is still needed. Allocation takes the lowest free one.
The special registers are not in the pool, and giving one back changes nothing.
-/

namespace WordC

/-- The general registers in use. -/
structure RegisterPool where
  used : Vector Bool generalCount
deriving DecidableEq, Repr

namespace RegisterPool

/-- No register is in use. -/
def empty : RegisterPool := ⟨Vector.replicate generalCount false⟩

/-- Is a general register in use? -/
def isLive (pool : RegisterPool) (i : Fin generalCount) : Bool := pool.used[i]

/-- Mark a general register as used or free. -/
def set (pool : RegisterPool) (i : Fin generalCount) (live : Bool) : RegisterPool :=
  ⟨pool.used.set i live⟩

/-- The lowest free register. -/
def free? (pool : RegisterPool) : Option (Fin generalCount) :=
  (List.finRange generalCount).find? fun i => !pool.isLive i

/-- Take the lowest free register. -/
def alloc? (pool : RegisterPool) : Option (Register × RegisterPool) :=
  pool.free?.map fun i => (.general i, pool.set i true)

/-- Give a register back. -/
def free (pool : RegisterPool) : Register → RegisterPool
  | .general i => pool.set i false
  | _ => pool

/-- The registers in use, in ascending order. -/
def live (pool : RegisterPool) : List Register :=
  ((List.finRange generalCount).filter pool.isLive).map .general

/-! ### What the operations do to the registers in use -/

theorem isLive_set (pool : RegisterPool) (i j : Fin generalCount) (b : Bool) :
    (pool.set i b).isLive j = if i = j then b else pool.isLive j := by
  simp [isLive, set, Vector.getElem_set, Fin.ext_iff]

theorem ext_isLive {p q : RegisterPool} (h : ∀ i, p.isLive i = q.isLive i) : p = q := by
  cases p with
  | mk u =>
    cases q with
    | mk v =>
      congr 1
      apply Vector.ext
      intro i hi
      exact h ⟨i, hi⟩

/-- Giving back a register that was free restores the pool. -/
theorem set_set_of_isLive {pool : RegisterPool} {i : Fin generalCount} {b : Bool}
    (h : pool.isLive i = b) (c : Bool) : (pool.set i c).set i b = pool := by
  apply ext_isLive
  intro j
  rw [isLive_set, isLive_set]
  split
  · subst_vars; rfl
  · rfl

theorem isLive_of_free? {pool : RegisterPool} {i : Fin generalCount}
    (h : pool.free? = some i) : pool.isLive i = false := by
  simpa using List.find?_some h

end RegisterPool

end WordC
