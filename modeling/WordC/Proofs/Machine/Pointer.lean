import WordC.Proofs.Machine.Run

/-!
# Running a listing with its stack pointer

A machine as in `WordC.Proofs.Machine.Run`, whose stack lies in the memory below `sp`. Beside the
machine stands where the `push` on each line last wrote to. A `call` comes back to the next line
with `sp` as it was; what it leaves in the other registers and in the memory is open, so a machine
has many next states there.

* `TracedStep`: one step;
* `Reaches lo hi Q c`: every run from `c` stays on the lines from `lo` up to `hi` until it is in
  a state with `Q`, which it gets to;
* `Moves pos code distance`: every run of the lines `code` at `pos` gets behind them, with `sp`
  moved by a distance. Words wrap around, so the distances of stretches add up whatever their size;
* `TracedConfig.enter`: a function is entered, with the return address on the stack.

A run leaves alone what was noted about lines that it does not come to (`Reaches.frame`).
-/

namespace WordC

variable {μ : Type}

/-- A machine in front of a line, and where the `push` on each line last wrote to. -/
structure TracedConfig (μ : Type) extends Config μ where
  written : Nat → Option Word

/-- Does the line push a register? -/
def Line.isPush : Line → Bool
  | .instruction (.push _) => true
  | _ => false

/-- The machine after a step; a `push` has written to where `sp` points now. -/
def TracedConfig.next (lines : List Line) (c : TracedConfig μ) (d : Config μ) : TracedConfig μ :=
  ⟨d, if lines[c.line]?.any Line.isPush then
      Function.update c.written c.line (some (d.machine.registers .sp))
    else c.written⟩

/-- The machine with a word more on the stack. -/
def Machine.pushed (world : World μ) (k : Machine μ) (w : Word) : Machine μ :=
  { k.set .sp (k.registers .sp - 2) with
    memory := world.write k.memory (k.registers .sp - 2) w }

@[simp] theorem Machine.sp_pushed (world : World μ) (k : Machine μ) (w : Word) :
    (k.pushed world w).registers .sp = k.registers .sp - 2 :=
  k.registers_set_self .sp _

theorem Machine.execute_push (world : World μ) (k : Machine μ) (r : Register) :
    k.execute world (.push r) = some (k.pushed world (k.registers r)) := rfl

/-- The machine in front of the first line of a function: the caller has pushed the return address
`back`. -/
def TracedConfig.enter (world : World μ) (c : TracedConfig μ) (line : Nat) (back : Word) :
    TracedConfig μ :=
  ⟨⟨line, c.machine.pushed world back⟩, c.written⟩

section Steps

variable (world : World μ) (lines : List Line)

/-- One step. A call leaves anything but in `sp`. -/
inductive TracedStep : TracedConfig μ → TracedConfig μ → Prop
  | plain {c : TracedConfig μ} {d : Config μ} (h : step world lines c.toConfig = some d) :
    TracedStep c (c.next lines d)
  | call {c : TracedConfig μ} {target : Register} {k : Machine μ}
    (h : lines[c.line]? = some (.instruction (.call target)))
    (hsp : k.registers .sp = c.machine.registers .sp) : TracedStep c ⟨⟨c.line + 1, k⟩, c.written⟩

/-- Every run gets to a state with `Q`, and is on a line from `lo` up to `hi` until then. -/
abbrev Reaches (lo hi : Nat) (Q : TracedConfig μ → Prop) : TracedConfig μ → Prop :=
  Arrives (TracedStep world lines) TracedConfig.toConfig lo hi Q

/-- Every run of the lines `code` at `pos` gets behind them, with `sp` moved by a distance. -/
def Moves (pos : Nat) (code : List Line) (distance : Word) : Prop :=
  ∀ k written, Reaches world lines pos (pos + code.length) (fun d => d.line = pos + code.length ∧
    d.machine.registers .sp = k.registers .sp + distance) ⟨⟨pos, k⟩, written⟩

end Steps

variable {world : World μ} {lines code code' : List Line} {lo hi pos : Nat}
  {Q : TracedConfig μ → Prop} {c d : TracedConfig μ}

/-- A step notes nothing about other lines. -/
theorem TracedStep.written_of_ne (h : TracedStep world lines c d) {l : Nat} (hl : l ≠ c.line) :
    d.written l = c.written l := by
  cases h with
  | plain _ =>
    unfold TracedConfig.next
    split
    · exact Function.update_of_ne hl _ _
    · rfl
  | call _ _ => rfl

/-- A step that can go only one way goes that way. -/
theorem TracedStep.eq_of_plain {e : Config μ} (hstep : TracedStep world lines c d)
    (h : step world lines c.toConfig = some e) : d = c.next lines e := by
  cases hstep with
  | plain h' => rw [Option.some.inj (h'.symm.trans h)]
  | call hcall _ => simp [step, hcall, Machine.execute] at h

namespace Reaches

/-- A run leaves alone what was noted about the lines outside of its stretch. -/
theorem frame (h : Reaches world lines lo hi Q c) :
    Reaches world lines lo hi
      (fun d => Q d ∧ ∀ l, l < lo ∨ hi ≤ l → d.written l = c.written l) c := by
  induction h with
  | here h => exact .here ⟨h, fun _ _ => rfl⟩
  | @step c hlo hhi hnext _ ih =>
    refine .step hlo hhi hnext fun d hd => (ih d hd).mono ?_
    rintro e ⟨hQ, he⟩
    refine ⟨hQ, fun l hl => (he l hl).trans (hd.written_of_ne ?_)⟩
    rintro rfl
    omega

theorem one {d : Config μ} (hlo : lo ≤ c.line) (hhi : c.line < hi)
    (h : WordC.step world lines c.toConfig = some d)
    (hd : Reaches world lines lo hi Q (c.next lines d)) : Reaches world lines lo hi Q c :=
  .only hlo hhi (.plain h) (fun _ hstep => hstep.eq_of_plain h) hd

/-- A path of the plain machine, where nothing is asked about what it notes. -/
theorem of_path {n : Nat} {c d : Config μ} (h : Path world lines lo hi n c d)
    {written : Nat → Option Word} (hQ : ∀ written, Q ⟨d, written⟩) :
    Reaches world lines lo hi Q ⟨c, written⟩ := by
  induction h generalizing written with
  | refl c => exact .here (hQ written)
  | step hlo hhi hstep _ ih => exact one hlo hhi hstep (ih hQ)

/-- A `push` notes the word below the stack. -/
theorem push {r : Register} {k : Machine μ} {written : Nat → Option Word}
    (hcode : CodeAt lines pos (.instruction (.push r) :: code))
    (hQ : Q ⟨⟨pos + 1, k.pushed world (k.registers r)⟩,
      Function.update written pos (some (k.registers .sp - 2))⟩) :
    Reaches world lines pos (pos + 1) Q ⟨⟨pos, k⟩, written⟩ := by
  refine one le_rfl (Nat.lt_succ_self pos) (step_execute hcode (k.execute_push world r)) (.here ?_)
  simpa [TracedConfig.next, hcode.head, Line.isPush] using hQ

end Reaches

/-! ### Stretches of lines -/

namespace Moves

variable {distance distance' : Word}

theorem nil : Moves world lines pos [] 0 := fun k _ => .here ⟨rfl, by simp⟩

theorem of_eq (h : Moves world lines pos code distance) (heq : distance = distance') :
    Moves world lines pos code distance' := heq ▸ h

theorem append (h : Moves world lines pos code distance)
    (h' : Moves world lines (pos + code.length) code' distance') :
    Moves world lines pos (code ++ code') (distance + distance') := by
  intro k written
  have hend : pos + (code ++ code').length = pos + code.length + code'.length := by
    rw [List.length_append]
    omega
  rw [hend]
  refine (h k written).trans le_rfl (by omega) ?_
  rintro ⟨⟨_, k'⟩, written'⟩ ⟨rfl, hsp⟩
  refine (h' k' written').trans (by omega) le_rfl fun d hd => .here ⟨hd.1, ?_⟩
  rw [hd.2, hsp, UInt16.add_assoc]

/-- Two stretches that leave `sp` where it was. -/
theorem append_zero (h : Moves world lines pos code 0)
    (h' : Moves world lines (pos + code.length) code' 0) :
    Moves world lines pos (code ++ code') 0 :=
  (h.append h').of_eq (UInt16.add_zero 0)

/-- Instructions without jumps. -/
theorem instructions {code : List Instruction} (hcode : CodeAt lines pos (code.map .instruction))
    (h : ∀ k : Machine μ, ∃ k', k.executeAll world code = some k' ∧
      k'.registers .sp = k.registers .sp + distance) :
    Moves world lines pos (code.map .instruction) distance := by
  intro k written
  obtain ⟨k', hk', hsp⟩ := h k
  have hpath := path_code hcode hk'
  rw [← List.length_map (Line.instruction)] at hpath
  exact .of_path hpath fun _ => ⟨rfl, hsp⟩

/-- A call comes back with `sp` as it was. -/
theorem call {target : Register} (hcode : CodeAt lines pos (.instruction (.call target) :: code)) :
    Moves world lines pos [.instruction (.call target)] 0 := by
  intro k written
  have hline := hcode.head
  refine .step le_rfl (Nat.lt_succ_self pos) ⟨_, .call hline rfl⟩ fun d hd => .here ?_
  cases hd with
  | plain h => simp [WordC.step, hline, Machine.execute] at h
  | call _ hsp => exact ⟨rfl, by simpa using hsp⟩

theorem push {r : Register} (hcode : CodeAt lines pos (.instruction (.push r) :: code)) :
    Moves world lines pos [.instruction (.push r)] (-2) :=
  fun _ _ => Reaches.push hcode ⟨rfl, by rw [Machine.sp_pushed, UInt16.sub_eq_add_neg]⟩

theorem pop {r : Register} (hr : r ≠ .sp)
    (hcode : CodeAt lines pos (.instruction (.pop r) :: code)) :
    Moves world lines pos [.instruction (.pop r)] 2 := by
  have hcode' : CodeAt lines pos ([Instruction.pop r].map .instruction ++ code) := hcode
  refine instructions hcode'.left fun k => ⟨_, rfl, ?_⟩
  rw [Machine.registers_set_of_ne _ hr.symm, Machine.registers_set_self]

end Moves

end WordC
