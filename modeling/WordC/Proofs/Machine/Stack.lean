import WordC.Proofs.Machine.Run
import WordC.Ty

/-!
# Running a listing with a stack

A machine as in `WordC.Proofs.Machine.Run`, with a stack that is a list of words beside the memory:
`push` adds a word, `pop` removes one, and adding to `sp` drops words. A `call` returns to the next
line with the stack and the frame pointer as they were; what it leaves in the other registers and
in the memory is open, so a machine has many next states there.

* `StackStep`: one step;
* `Ends lo hi Q c`: every run from `c` stays on the lines from `lo` up to `hi` until it is in
  a state with `Q`, which it gets to;
* `Runs pos code k stack Q`: every run of the lines `code` at `pos` gets behind them, with `Q`.

A path of the machine without a stack is one of the machine with a stack, as long as no line on it
touches the stack (`Ends.of_path`).
-/

namespace WordC

variable {μ : Type}

/-- A machine with a stack in front of a line of a listing. -/
structure StackConfig (μ : Type) extends Config μ where
  stack : List Word

/-- Does the instruction work on the stack? -/
def Instruction.usesStack : Instruction → Bool
  | .push _ | .pop _ => true
  | .add target _ => target = .sp
  | _ => false

/-- Does the line work on the stack? -/
def Line.usesStack : Line → Bool
  | .instruction i => i.usesStack
  | _ => false

section Steps

variable (world : World μ) (lines : List Line)

/-- A step that can go only one way; none at a call and where the machine stops. -/
def stackStep? (c : StackConfig μ) : Option (StackConfig μ) :=
  match lines[c.line]? with
  | some (.instruction (.push r)) =>
    some ⟨⟨c.line + 1, c.machine⟩, c.machine.registers r :: c.stack⟩
  | some (.instruction (.pop r)) =>
    match c.stack with
    | [] => none
    | w :: rest => some ⟨⟨c.line + 1, c.machine.set r w⟩, rest⟩
  | some (.instruction (.add .sp (.immediate bytes))) =>
    let count := bytes.toNat / wordBytes
    if count ≤ c.stack.length then some ⟨⟨c.line + 1, c.machine⟩, c.stack.drop count⟩ else none
  | _ => (step world lines c.toConfig).map fun d => ⟨d, c.stack⟩

/-- One step. A call leaves anything but in the stack and the frame pointer. -/
inductive StackStep : StackConfig μ → StackConfig μ → Prop
  | plain {c d : StackConfig μ} (h : stackStep? world lines c = some d) : StackStep c d
  | call {c : StackConfig μ} {target : Register} {k : Machine μ}
    (h : lines[c.line]? = some (.instruction (.call target)))
    (hsf : k.registers .sf = c.machine.registers .sf) : StackStep c ⟨⟨c.line + 1, k⟩, c.stack⟩

/-- Every run gets to a state with `Q`, and is on a line from `lo` up to `hi` until then. -/
abbrev Ends (lo hi : Nat) (Q : StackConfig μ → Prop) : StackConfig μ → Prop :=
  Arrives (StackStep world lines) StackConfig.toConfig lo hi Q

/-- Every run of the lines `code` at `pos` gets behind them, with `Q`. -/
def Runs (pos : Nat) (code : List Line) (k : Machine μ) (stack : List Word)
    (Q : Machine μ → List Word → Prop) : Prop :=
  Ends world lines pos (pos + code.length)
    (fun d => d.line = pos + code.length ∧ Q d.machine d.stack) ⟨⟨pos, k⟩, stack⟩

end Steps

variable {world : World μ} {lines : List Line} {lo hi pos : Nat} {Q : StackConfig μ → Prop}
  {c d d' : StackConfig μ}

/-- On a line that does not touch the stack, the machine with a stack does what the other does. -/
theorem stackStep?_of_plain {line : Line} (hline : lines[c.line]? = some line)
    (hplain : line.usesStack = false) :
    stackStep? world lines c = (step world lines c.toConfig).map fun d => ⟨d, c.stack⟩ := by
  unfold stackStep?
  rw [hline]
  cases line with
  | label name => rfl
  | reserve bytes => rfl
  | string content => rfl
  | instruction i =>
    cases i with
    | push r => cases hplain
    | pop r => cases hplain
    | add target source =>
      cases target with
      | sp => cases hplain
      | general i => rfl
      | sf => rfl
      | rv => rfl
    | _ => rfl

/-- A step that can go only one way goes that way. -/
theorem StackStep.eq_of_plain (hstep : StackStep world lines c d')
    (h : stackStep? world lines c = some d) : d' = d := by
  cases hstep with
  | plain h' => exact Option.some.inj (h'.symm.trans h)
  | call hcall _ => simp [stackStep?, hcall, WordC.step, Machine.execute] at h

namespace Ends

theorem one (hlo : lo ≤ c.line) (hhi : c.line < hi) (h : stackStep? world lines c = some d)
    (hd : Ends world lines lo hi Q d) : Ends world lines lo hi Q c :=
  .only hlo hhi (.plain h) (fun _ hstep => hstep.eq_of_plain h) hd

/-- A path of the machine without a stack, where no line touches the stack. -/
theorem of_path {n : Nat} {c d : Config μ} (h : Path world lines lo hi n c d)
    (hplain : ∀ i line, lo ≤ i → i < hi → lines[i]? = some line → line.usesStack = false)
    {stack : List Word} (hQ : Q ⟨d, stack⟩) : Ends world lines lo hi Q ⟨c, stack⟩ := by
  induction h with
  | refl c => exact .here hQ
  | @step n c d e hlo hhi hstep hrest ih =>
    refine one hlo hhi ?_ (ih hQ)
    cases hline : lines[c.line]? with
    | none => simp [WordC.step, hline] at hstep
    | some line => rw [stackStep?_of_plain hline (hplain _ _ hlo hhi hline), hstep, Option.map_some]

end Ends

/-! ### Stretches of lines -/

/-- The lines of a stretch are those of the listing. -/
theorem CodeAt.mem_of_getElem? {code : List Line} {i : Nat} {line : Line}
    (h : CodeAt lines pos code) (hlo : pos ≤ i) (hhi : i < pos + code.length)
    (hline : lines[i]? = some line) : line ∈ code := by
  obtain ⟨before, after, rfl, rfl⟩ := h
  rw [List.getElem?_append_right hlo, List.getElem?_append_left (by omega)] at hline
  exact List.mem_of_getElem? hline

/-- A path of the machine without a stack over lines that do not touch it. -/
theorem Ends.of_path_code {code : List Line} {n : Nat} {c d : Config μ}
    (hcode : CodeAt lines pos code) (hplain : ∀ line ∈ code, line.usesStack = false)
    (h : Path world lines pos (pos + code.length) n c d) {stack : List Word} (hQ : Q ⟨d, stack⟩) :
    Ends world lines pos (pos + code.length) Q ⟨c, stack⟩ :=
  .of_path h (fun _ _ hlo hhi hline => hplain _ (hcode.mem_of_getElem? hlo hhi hline)) hQ

namespace Runs

variable {code code' : List Line} {k k' : Machine μ} {stack stack' : List Word}
  {P P' : Machine μ → List Word → Prop}

theorem nil (h : P k stack) : Runs world lines pos [] k stack P := .here ⟨rfl, h⟩

theorem append (h : Runs world lines pos code k stack P)
    (h' : ∀ k stack, P k stack → Runs world lines (pos + code.length) code' k stack P') :
    Runs world lines pos (code ++ code') k stack P' := by
  have hend : pos + (code ++ code').length = pos + code.length + code'.length := by
    rw [List.length_append]
    omega
  unfold Runs
  rw [hend]
  refine h.trans le_rfl (by omega) ?_
  rintro ⟨⟨_, k⟩, stack⟩ ⟨rfl, hP⟩
  exact (h' k stack hP).trans (by omega) le_rfl fun d hd => .here hd

theorem mono (h : Runs world lines pos code k stack P) (hP : ∀ k stack, P k stack → P' k stack) :
    Runs world lines pos code k stack P' :=
  Arrives.mono h fun _ hd => ⟨hd.1, hP _ _ hd.2⟩

/-- A line that goes one way, and the lines behind it. -/
theorem cons {line : Line}
    (h : stackStep? world lines ⟨⟨pos, k⟩, stack⟩ = some ⟨⟨pos + 1, k'⟩, stack'⟩)
    (hrest : Runs world lines (pos + 1) code k' stack' P) :
    Runs world lines pos (line :: code) k stack P := by
  have hone : Runs world lines pos [line] k stack fun k₁ stack₁ => k₁ = k' ∧ stack₁ = stack' :=
    Ends.one le_rfl (Nat.lt_succ_self pos) h (.here ⟨rfl, rfl, rfl⟩)
  refine append hone ?_
  rintro _ _ ⟨rfl, rfl⟩
  exact hrest

theorem push {r : Register} (hcode : CodeAt lines pos (.instruction (.push r) :: code))
    (hrest : Runs world lines (pos + 1) code k (k.registers r :: stack) P) :
    Runs world lines pos (.instruction (.push r) :: code) k stack P :=
  cons (by simp [stackStep?, hcode.head]) hrest

theorem pop {r : Register} {w : Word} (hcode : CodeAt lines pos (.instruction (.pop r) :: code))
    (hrest : Runs world lines (pos + 1) code (k.set r w) stack P) :
    Runs world lines pos (.instruction (.pop r) :: code) k (w :: stack) P :=
  cons (by simp [stackStep?, hcode.head]) hrest

/-- Instructions without jumps that do not touch the stack. -/
theorem instructions {code : List Instruction} (hcode : CodeAt lines pos (code.map .instruction))
    (hplain : ∀ i ∈ code, i.usesStack = false) (h : k.executeAll world code = some k')
    (hP : P k' stack) : Runs world lines pos (code.map .instruction) k stack P := by
  have hpath := path_code hcode h
  rw [← List.length_map (Line.instruction)] at hpath
  refine .of_path_code hcode ?_ hpath ⟨rfl, hP⟩
  intro line hline
  obtain ⟨i, hi, rfl⟩ := List.mem_map.1 hline
  exact hplain i hi

/-- Registers that are pushed; the last one is on top. -/
theorem pushes {saved : List Register}
    (hcode : CodeAt lines pos ((saved.map Instruction.push).map .instruction))
    (hP : P k ((saved.map k.registers).reverse ++ stack)) :
    Runs world lines pos ((saved.map Instruction.push).map .instruction) k stack P := by
  induction saved generalizing pos stack with
  | nil => exact nil hP
  | cons r saved ih => exact push hcode (ih hcode.tail (by simpa using hP))

/-- Registers that are popped get the words on the stack. -/
theorem pops {saved : List Register} {value : Register → Word}
    (hcode : CodeAt lines pos ((saved.map Instruction.pop).map .instruction))
    (hP : ∀ k', (∀ r ∈ saved, k'.registers r = value r) →
      (∀ r, r ∉ saved → k'.registers r = k.registers r) → P k' stack) :
    Runs world lines pos ((saved.map Instruction.pop).map .instruction) k
      (saved.map value ++ stack) P := by
  induction saved generalizing pos k with
  | nil => exact nil (hP k (by simp) fun _ _ => rfl)
  | cons r saved ih =>
    refine pop hcode (ih hcode.tail fun k' hin hout => hP k' ?_ ?_)
    · intro q hq
      by_cases hmem : q ∈ saved
      · exact hin q hmem
      · obtain rfl : q = r := by simpa [hmem] using hq
        rw [hout q hmem, Machine.registers_set_self]
    · intro q hq
      rw [List.mem_cons, not_or] at hq
      rw [hout q hq.2, Machine.registers_set_of_ne _ hq.1]

end Runs

end WordC
