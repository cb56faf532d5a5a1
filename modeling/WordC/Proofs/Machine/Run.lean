import Mathlib
import WordC.Listing

/-!
# Running a listing

A machine has registers, the two words of the last comparison, and a memory. A `World` is what
nothing is assumed about: the memory with its reads and writes, multiplication and division, the
order that `FLAGS_LESSEQ` reports, and the addresses of the labels.

* `Machine.execute`: what an instruction that goes on to the next line does;
* `step`: one line of a listing; a jump goes to the line of its label, and the machine stops at
  a `ret`, at a `call`, at data and behind the last line;
* `Path lo hi n c d`: `n` steps lead from `c` to `d`, each of them on a line from `lo` up to `hi`;
* `Arrives Next config lo hi Q c`: every run from `c`, in which a state may have many next ones,
  stays on the lines from `lo` up to `hi` until it is in a state with `Q`, which it gets to;
* `CodeAt lines pos code`: the listing has the lines `code` from line `pos` on.

`path_code` runs a stretch of instructions without jumps, `lineOf_of_codeAt` finds the line of
a label in a listing whose labels are distinct.
-/

namespace WordC

/-- A word of the machine. -/
abbrev Word := UInt16

/-- The word for a truth value. -/
def Word.ofBool (b : Bool) : Word := if b then 1 else 0

/-- A memory of type `μ`, and the operations that are left open. -/
structure World (μ : Type) where
  read : μ → Word → Word
  write : μ → Word → Word → μ
  mul : Word → Word → Word
  div : Word → Word → Word
  lessEqual : Word → Word → Bool
  /-- Where a label lies. -/
  address : String → Word

/-- A memory that is a map from addresses to words, with words ordered without sign. -/
def World.flat (address : String → Word) : World (Word → Word) where
  read m w := m w
  write m w v := Function.update m w v
  mul a b := a * b
  div a b := a / b
  lessEqual a b := a ≤ b
  address := address

/-- The contents of the machine. -/
structure Machine (μ : Type) where
  registers : Register → Word
  /-- The operands of the last comparison. -/
  compared : Word × Word
  memory : μ

namespace Machine

variable {μ : Type} (world : World μ) (k : Machine μ)

/-- Put a word into a register. -/
def set (r : Register) (v : Word) : Machine μ :=
  { k with registers := Function.update k.registers r v }

@[simp] theorem registers_set_self (r : Register) (v : Word) : (k.set r v).registers r = v := by
  simp [set]

theorem registers_set_of_ne {r q : Register} (h : q ≠ r) (v : Word) :
    (k.set r v).registers q = k.registers q := by
  simp [set, Function.update_of_ne h]

@[simp] theorem memory_set (r : Register) (v : Word) : (k.set r v).memory = k.memory := rfl

/-- The address that an instruction means; offsets wrap around. -/
def locate : Address → Word
  | .frame offset => k.registers .sf + offset.toUInt16
  | .register r => k.registers r
  | .label name => world.address name

/-- The word that an operand stands for. -/
def value : Operand → Word
  | .register r => k.registers r
  | .immediate v => v
  | .label name => world.address name
  | .memory address => world.read k.memory (k.locate world address)

/-- Store a word in the target of a move, which is a register or a place in memory. -/
def assign (target : Operand) (v : Word) : Option (Machine μ) :=
  match target with
  | .register r => some (k.set r v)
  | .memory address => some { k with memory := world.write k.memory (k.locate world address) v }
  | .immediate _ | .label _ => none

/-- What a flag says about the last comparison. -/
def flag : Flag → Bool
  | .equal => k.compared.1 = k.compared.2
  | .lessEqual => world.lessEqual k.compared.1 k.compared.2

/-- What an instruction does that goes on to the next line. -/
def execute : Instruction → Option (Machine μ)
  | .push r =>
    let sp := k.registers .sp - 2
    some { k.set .sp sp with memory := world.write k.memory sp (k.registers r) }
  | .pop r =>
    some ((k.set .sp (k.registers .sp + 2)).set r (world.read k.memory (k.registers .sp)))
  | .mov target source => k.assign world target (k.value world source)
  | .add r source => some (k.set r (k.registers r + k.value world source))
  | .sub r source => some (k.set r (k.registers r - k.value world source))
  | .mul a b => some (k.set a (world.mul (k.registers a) (k.registers b)))
  | .div a b => some (k.set a (world.div (k.registers a) (k.registers b)))
  | .cmp a b => some { k with compared := (k.registers a, k.registers b) }
  | .flg r flag => some (k.set r (Word.ofBool (k.flag world flag)))
  | .call _ | .jmp _ | .jnz _ _ | .ret => none

/-- What a stretch of such instructions does. -/
def executeAll (k : Machine μ) : List Instruction → Option (Machine μ)
  | [] => some k
  | i :: code => (k.execute world i).bind fun k => k.executeAll code

end Machine

/-- A machine in front of a line of a listing. -/
structure Config (μ : Type) where
  line : Nat
  machine : Machine μ

/-- The names that lines define, in order. -/
def labelsOf (lines : List Line) : List String := lines.filterMap Line.label?

@[simp] theorem labelsOf_append (lines lines' : List Line) :
    labelsOf (lines ++ lines') = labelsOf lines ++ labelsOf lines' := List.filterMap_append

/-- The line of a label. -/
def lineOf (lines : List Line) (name : String) : Option Nat :=
  lines.findIdx? fun line => line = .label name

section Steps

variable {μ : Type} (world : World μ) (lines : List Line)

/-- One step; none where the machine stops. -/
def step (c : Config μ) : Option (Config μ) :=
  match lines[c.line]? with
  | some (.label _) => some ⟨c.line + 1, c.machine⟩
  | some (.instruction (.jmp name)) => (lineOf lines name).map fun line => ⟨line, c.machine⟩
  | some (.instruction (.jnz r name)) =>
    if c.machine.registers r = 0 then some ⟨c.line + 1, c.machine⟩
    else (lineOf lines name).map fun line => ⟨line, c.machine⟩
  | some (.instruction i) =>
    (c.machine.execute world i).map fun machine => ⟨c.line + 1, machine⟩
  | _ => none

/-- So many steps, each of them on a line from `lo` up to `hi`. -/
inductive Path (lo hi : Nat) : Nat → Config μ → Config μ → Prop
  | refl (c : Config μ) : Path lo hi 0 c c
  | step {n : Nat} {c d e : Config μ} : lo ≤ c.line → c.line < hi → step world lines c = some d →
    Path lo hi n d e → Path lo hi (n + 1) c e

end Steps

namespace Path

variable {μ : Type} {world : World μ} {lines : List Line} {lo hi lo' hi' m n : Nat}
  {c d e : Config μ}

theorem one (hlo : lo ≤ c.line) (hhi : c.line < hi) (h : WordC.step world lines c = some d) :
    Path world lines lo hi 1 c d :=
  .step hlo hhi h (.refl d)

theorem trans (h : Path world lines lo hi m c d) (h' : Path world lines lo hi n d e) :
    Path world lines lo hi (m + n) c e := by
  induction h with
  | refl c => rwa [Nat.zero_add]
  | step hlo hhi hs _ ih =>
    rw [Nat.add_right_comm]
    exact .step hlo hhi hs (ih h')

/-- A path stays on the lines of a larger stretch. -/
theorem mono (h : Path world lines lo hi n c d) (hlo : lo' ≤ lo) (hhi : hi ≤ hi') :
    Path world lines lo' hi' n c d := by
  induction h with
  | refl c => exact .refl c
  | step h₁ h₂ hs _ ih => exact .step (hlo.trans h₁) (h₂.trans_le hhi) hs ih

/-- The first steps of a path. -/
theorem take (h : Path world lines lo hi n c e) (hm : m ≤ n) :
    ∃ d, Path world lines lo hi m c d ∧ Path world lines lo hi (n - m) d e := by
  induction h generalizing m with
  | refl c =>
    obtain rfl : m = 0 := by omega
    exact ⟨c, .refl c, .refl c⟩
  | step h₁ h₂ hs hrest ih =>
    cases m with
    | zero => exact ⟨_, .refl _, .step h₁ h₂ hs hrest⟩
    | succ m =>
      obtain ⟨d, hd, hr⟩ := ih (by omega : m ≤ _)
      exact ⟨d, .step h₁ h₂ hs hd, by rwa [Nat.add_sub_add_right]⟩

end Path

/-! ### What every run gets to -/

/-- Every run by the steps `Next` gets to a state with `Q`, and is on a line from `lo` up to `hi`
until then. A state holds a machine in front of a line, and whatever else the steps depend on. -/
inductive Arrives {μ κ : Type} (Next : κ → κ → Prop) (config : κ → Config μ) (lo hi : Nat)
    (Q : κ → Prop) : κ → Prop
  | here {c : κ} (h : Q c) : Arrives Next config lo hi Q c
  | step {c : κ} (hlo : lo ≤ (config c).line) (hhi : (config c).line < hi) (hnext : ∃ d, Next c d)
    (h : ∀ d, Next c d → Arrives Next config lo hi Q d) : Arrives Next config lo hi Q c

namespace Arrives

variable {μ κ : Type} {Next : κ → κ → Prop} {config : κ → Config μ} {lo hi lo' hi' : Nat}
  {Q Q' : κ → Prop} {c d : κ}

/-- What every run gets to from where every run gets to. -/
theorem trans (h : Arrives Next config lo hi Q c) (hlo : lo' ≤ lo) (hhi : hi ≤ hi')
    (hnext : ∀ d, Q d → Arrives Next config lo' hi' Q' d) : Arrives Next config lo' hi' Q' c := by
  induction h with
  | here h => exact hnext _ h
  | step h₁ h₂ hstep _ ih => exact .step (hlo.trans h₁) (h₂.trans_le hhi) hstep ih

theorem mono (h : Arrives Next config lo hi Q c) (hQ : ∀ d, Q d → Q' d) :
    Arrives Next config lo hi Q' c :=
  h.trans le_rfl le_rfl fun d hd => .here (hQ d hd)

/-- A step that can go only one way. -/
theorem only (hlo : lo ≤ (config c).line) (hhi : (config c).line < hi) (h : Next c d)
    (honly : ∀ d', Next c d' → d' = d) (hd : Arrives Next config lo hi Q d) :
    Arrives Next config lo hi Q c :=
  .step hlo hhi ⟨d, h⟩ fun d' hd' => honly d' hd' ▸ hd

end Arrives

/-! ### Stretches of a listing -/

/-- The listing has these lines from line `pos` on. -/
def CodeAt (lines : List Line) (pos : Nat) (code : List Line) : Prop :=
  ∃ before after, lines = before ++ (code ++ after) ∧ before.length = pos

namespace CodeAt

variable {lines code code' : List Line} {line : Line} {pos : Nat}

theorem left (h : CodeAt lines pos (code ++ code')) : CodeAt lines pos code := by
  obtain ⟨before, after, rfl, rfl⟩ := h
  exact ⟨before, code' ++ after, by simp, rfl⟩

theorem right (h : CodeAt lines pos (code ++ code')) :
    CodeAt lines (pos + code.length) code' := by
  obtain ⟨before, after, rfl, rfl⟩ := h
  exact ⟨before ++ code, after, by simp, by simp⟩

theorem tail (h : CodeAt lines pos (line :: code)) : CodeAt lines (pos + 1) code := by
  have h' : CodeAt lines pos ([line] ++ code) := h
  exact h'.right

theorem head (h : CodeAt lines pos (line :: code)) : lines[pos]? = some line := by
  obtain ⟨before, after, rfl, rfl⟩ := h
  simp

theorem getElem? {n : Nat} (h : CodeAt lines pos code) (hline : code[n]? = some line) :
    lines[pos + n]? = some line := by
  obtain ⟨before, after, rfl, rfl⟩ := h
  obtain ⟨hn, -⟩ := List.getElem?_eq_some_iff.1 hline
  rw [List.getElem?_append_right (by omega), Nat.add_sub_cancel_left,
    List.getElem?_append_left hn, hline]

end CodeAt

/-- Where labels are distinct, a label is found on the line that defines it. -/
theorem lineOf_of_codeAt {lines code : List Line} {pos : Nat} {name : String}
    (hu : (labelsOf lines).Nodup) (h : CodeAt lines pos (.label name :: code)) :
    lineOf lines name = some pos := by
  obtain ⟨before, after, rfl, rfl⟩ := h
  have hbefore : name ∉ labelsOf before := by
    intro hmem
    rw [labelsOf_append, List.nodup_append] at hu
    exact hu.2.2 name hmem name (by simp [labelsOf, Line.label?]) rfl
  have hnone : before.findIdx? (fun line => line = .label name) = none := by
    rw [List.findIdx?_eq_none_iff]
    intro line hline
    have hne : line ≠ .label name := by
      rintro rfl
      exact hbefore (List.mem_filterMap.2 ⟨_, hline, rfl⟩)
    simpa using hne
  rw [lineOf, List.findIdx?_append, hnone]
  simp [List.findIdx?_cons]

/-! ### Steps in a stretch -/

section

variable {μ : Type} {world : World μ} {lines code : List Line} {pos : Nat} {k k' : Machine μ}

theorem step_label {name : String} (h : CodeAt lines pos (.label name :: code)) :
    step world lines ⟨pos, k⟩ = some ⟨pos + 1, k⟩ := by
  simp [step, h.head]

theorem step_jmp {name : String} {target : Nat}
    (h : CodeAt lines pos (.instruction (.jmp name) :: code))
    (ht : lineOf lines name = some target) :
    step world lines ⟨pos, k⟩ = some ⟨target, k⟩ := by
  simp [step, h.head, ht]

theorem step_jnz_of_zero {r : Register} {name : String}
    (h : CodeAt lines pos (.instruction (.jnz r name) :: code)) (hr : k.registers r = 0) :
    step world lines ⟨pos, k⟩ = some ⟨pos + 1, k⟩ := by
  simp [step, h.head, hr]

theorem step_jnz_of_ne {r : Register} {name : String} {target : Nat}
    (h : CodeAt lines pos (.instruction (.jnz r name) :: code)) (hr : k.registers r ≠ 0)
    (ht : lineOf lines name = some target) :
    step world lines ⟨pos, k⟩ = some ⟨target, k⟩ := by
  simp [step, h.head, hr, ht]

theorem step_execute {i : Instruction} (h : CodeAt lines pos (.instruction i :: code))
    (hi : k.execute world i = some k') : step world lines ⟨pos, k⟩ = some ⟨pos + 1, k'⟩ := by
  cases i <;> simp_all [step, h.head, Machine.execute]

/-- A stretch of instructions without jumps is run through, from its first line to behind its
last. -/
theorem path_code {code : List Instruction} (h : CodeAt lines pos (code.map .instruction))
    (hk : k.executeAll world code = some k') :
    Path world lines pos (pos + code.length) code.length ⟨pos, k⟩ ⟨pos + code.length, k'⟩ := by
  induction code generalizing pos k with
  | nil =>
    cases hk
    exact .refl _
  | cons i code ih =>
    rw [Machine.executeAll, Option.bind_eq_some_iff] at hk
    obtain ⟨k₁, hi, hrest⟩ := hk
    have hpath := ih h.tail hrest
    rw [List.length_cons, show pos + (code.length + 1) = pos + 1 + code.length by omega]
    exact .step le_rfl (by dsimp only; omega) (step_execute h hi) (hpath.mono (by omega) le_rfl)

end

end WordC
