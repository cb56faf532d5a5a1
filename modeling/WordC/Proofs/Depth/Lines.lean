import WordC.Lowering.Stmt
import WordC.Proofs.Labels.Lines

/-!
# The depth of the stack

How deep the stack is in front of a line, in bytes modulo the size of a word, relative to the frame
of the function. A line that is not part of a frame's own code changes it by its `growth`. The code
that makes or leaves a frame (`IsFrameCode`) is passed over: the depth counts from behind a
prologue, and nothing is asked of it behind an epilogue.

`Leads exits d lines d'`: the lines, entered at depth `d`, are left at depth `d'` below them; their
jumps go to labels among them that have the depth of the jump, or to one of the exits, which are
labels elsewhere with their depths; frame code stands in them as a whole and at depth 0. Such
stretches can be put one behind the other (`Leads.append`).
-/

namespace WordC

open Lowering

/-! ### Growth -/

/-- How much deeper the stack is behind an instruction. -/
def Instruction.growth : Instruction → Word
  | .push _ => 2
  | .pop _ => -2
  | .add .sp (.immediate bytes) => -bytes
  | _ => 0

/-- How much deeper the stack is behind a line. -/
def Line.growth : Line → Word
  | .instruction i => i.growth
  | _ => 0

/-- Is the instruction one of those that make or leave a frame? -/
def Instruction.isFrame : Instruction → Bool
  | .push .sf | .pop .sf | .ret | .sub .sp _ => true
  | .mov (.register .sf) (.register .sp) | .mov (.register .sp) (.register .sf) => true
  | _ => false

/-- Is the line one of those that make or leave a frame? -/
def Line.isFrame : Line → Bool
  | .instruction i => i.isFrame
  | _ => false

/-- The code that makes or leaves a frame. -/
inductive IsFrameCode : List Instruction → Prop
  | entry : IsFrameCode prologue
  | entryWithRoom (bytes : Word) : IsFrameCode (prologue ++ reservation bytes)
  | exit : IsFrameCode epilogue

theorem IsFrameCode.of_reserve {reserve : List Instruction}
    (h : reserve = [] ∨ ∃ bytes, reserve = reservation bytes) :
    IsFrameCode (prologue ++ reserve) := by
  obtain rfl | ⟨bytes, rfl⟩ := h
  · exact .entry
  · exact .entryWithRoom bytes

/-- How much deeper the stack is behind lines, frame code passed over. -/
def rise : List Line → Word
  | [] => 0
  | line :: lines => (if line.isFrame then 0 else line.growth) + rise lines

@[simp] theorem rise_nil : rise [] = 0 := rfl

theorem rise_cons (line : Line) (lines : List Line) :
    rise (line :: lines) = (if line.isFrame then 0 else line.growth) + rise lines := rfl

@[simp] theorem rise_append (lines lines' : List Line) :
    rise (lines ++ lines') = rise lines + rise lines' := by
  induction lines with
  | nil => simp
  | cons line lines ih => rw [List.cons_append, rise_cons, rise_cons, ih, UInt16.add_assoc]

theorem rise_eq_zero {lines : List Line} (h : ∀ line ∈ lines, rise [line] = 0) :
    rise lines = 0 := by
  induction lines with
  | nil => rfl
  | cons line lines ih =>
    rw [List.forall_mem_cons] at h
    rw [← List.singleton_append, rise_append, h.1, ih h.2, UInt16.add_zero]

/-! ### Names with the depth they stand at -/

/-- The names that lines have by `name?`, each with the depth of its line, if the first one has
depth `d`. -/
def depthsOf (name? : Line → Option String) : Word → List Line → List (String × Word)
  | _, [] => []
  | d, line :: lines => (name? line).toList.map (·, d) ++ depthsOf name? (d + rise [line]) lines

section Depths

variable {name? : Line → Option String} {d : Word} {lines lines' : List Line}

@[simp] theorem depthsOf_nil : depthsOf name? d [] = [] := rfl

@[simp] theorem depthsOf_append : depthsOf name? d (lines ++ lines') =
    depthsOf name? d lines ++ depthsOf name? (d + rise lines) lines' := by
  induction lines generalizing d with
  | nil => simp
  | cons line lines ih =>
    rw [List.cons_append, depthsOf, depthsOf, ih, List.append_assoc, UInt16.add_assoc,
      ← rise_append]
    rfl

theorem depthsOf_eq_nil (h : lines.filterMap name? = []) : depthsOf name? d lines = [] := by
  induction lines generalizing d with
  | nil => rfl
  | cons line lines ih =>
    rw [List.filterMap_eq_nil_iff, List.forall_mem_cons] at h
    rw [depthsOf, h.1, ih (List.filterMap_eq_nil_iff.2 h.2)]
    rfl

/-- A name stands with the depth in front of its line. -/
theorem mem_depthsOf {p : String × Word} : p ∈ depthsOf name? d lines ↔
    ∃ k line, lines[k]? = some line ∧ name? line = some p.1 ∧ p.2 = d + rise (lines.take k) := by
  induction lines generalizing d with
  | nil => simp
  | cons line lines ih =>
    have htake (k : Nat) : d + rise [line] + rise (lines.take k) =
        d + rise ((line :: lines).take (k + 1)) := by
      rw [UInt16.add_assoc, ← rise_append]
      rfl
    rw [depthsOf, List.mem_append, ih]
    constructor
    · rintro (hhere | ⟨k, line', hk, hname, hdepth⟩)
      · obtain ⟨name, hname, rfl⟩ := List.mem_map.1 hhere
        exact ⟨0, line, rfl, Option.mem_toList.1 hname, by simp⟩
      · exact ⟨k + 1, line', hk, hname, hdepth.trans (htake k)⟩
    · rintro ⟨k, line', hk, hname, hdepth⟩
      cases k with
      | zero =>
        cases hk
        refine .inl (List.mem_map.2 ⟨p.1, Option.mem_toList.2 hname, Prod.ext rfl ?_⟩)
        simpa using hdepth.symm
      | succ k => exact .inr ⟨k, line', hk, hname, hdepth.trans (htake k).symm⟩

end Depths

/-! ### Frame code -/

/-- The line is one of a stretch that makes or leaves a frame as a whole. -/
def Framed (lines : List Line) (k : Nat) : Prop :=
  ∃ start code, IsFrameCode code ∧ CodeAt lines start (code.map .instruction) ∧ start ≤ k ∧
    k < start + code.length

namespace Framed

variable {lines lines' : List Line} {k : Nat}

theorem left (h : Framed lines k) : Framed (lines ++ lines') k := by
  obtain ⟨start, code, hcode, ⟨before, after, rfl, rfl⟩, hk⟩ := h
  exact ⟨before.length, code, hcode, ⟨before, after ++ lines', by simp, rfl⟩, hk⟩

theorem right (h : Framed lines' k) : Framed (lines ++ lines') (lines.length + k) := by
  obtain ⟨start, code, hcode, ⟨before, after, rfl, rfl⟩, hlo, hhi⟩ := h
  exact ⟨lines.length + before.length, code, hcode, ⟨lines ++ before, after, by simp, by simp⟩,
    by omega, by omega⟩

end Framed

/-! ### Stretches of lines -/

/-- The lines lead from one depth to another, and so do their jumps, frame code passed over. -/
structure Leads (exits : List (String × Word)) (d : Word) (lines : List Line) (d' : Word) :
    Prop where
  ends : d + rise lines = d'
  jumps : ∀ p ∈ depthsOf Line.jump? d lines, p ∈ depthsOf Line.label? d lines ∨ p ∈ exits
  frames : ∀ k line, lines[k]? = some line → line.isFrame = true →
    d + rise (lines.take k) = 0 ∧ Framed lines k

namespace Leads

variable {exits exits' : List (String × Word)} {d d' d'' : Word} {lines lines' : List Line}

theorem append (h : Leads exits d lines d') (h' : Leads exits d' lines' d'') :
    Leads exits d (lines ++ lines') d'' := by
  obtain rfl := h.ends
  refine ⟨?_, fun p hp => ?_, fun k line hk hframe => ?_⟩
  · rw [rise_append, ← UInt16.add_assoc, h'.ends]
  · rw [depthsOf_append, List.mem_append] at hp ⊢
    rcases hp with hp | hp
    · exact (h.jumps p hp).imp_left .inl
    · exact (h'.jumps p hp).imp_left .inr
  · rcases Nat.lt_or_ge k lines.length with hlt | hge
    · rw [List.getElem?_append_left hlt] at hk
      rw [List.take_append_of_le_length hlt.le]
      exact (h.frames k line hk hframe).imp_right .left
    · obtain ⟨n, rfl⟩ := Nat.exists_eq_add_of_le hge
      rw [List.getElem?_append_right hge, Nat.add_sub_cancel_left] at hk
      rw [List.take_length_add_append, rise_append, ← UInt16.add_assoc]
      exact (h'.frames n line hk hframe).imp_right .right

theorem mono (h : Leads exits d lines d') (hexits : exits ⊆ exits') : Leads exits' d lines d' :=
  ⟨h.ends, fun p hp => (h.jumps p hp).imp_right fun hp => hexits hp, h.frames⟩

theorem weaken (h : Leads [] d lines d') : Leads exits d lines d' := h.mono (List.nil_subset _)

/-- Lines without frame code. -/
theorem of_frameless (hframes : lines.all (fun line => !line.isFrame) = true)
    (hends : d + rise lines = d')
    (hjumps : ∀ p ∈ depthsOf Line.jump? d lines, p ∈ depthsOf Line.label? d lines ∨ p ∈ exits) :
    Leads exits d lines d' := by
  refine ⟨hends, hjumps, fun k line hk hframe => ?_⟩
  have hnot := List.all_eq_true.1 hframes line (List.mem_of_getElem? hk)
  simp [hframe] at hnot

theorem nil : Leads exits d [] d := of_frameless rfl (UInt16.add_zero d) (by simp)

theorem label (name : String) : Leads exits d [.label name] d :=
  of_frameless rfl (by simp [rise, Line.isFrame, Line.growth]) (by simp [depthsOf, Line.jump?])

/-- An exit is where the lines end. -/
theorem label_behind {name : String} (h : Leads ((name, d') :: exits) d lines d') :
    Leads exits d (lines ++ [.label name]) d' := by
  have hall := h.append (label name)
  refine ⟨hall.ends, fun p hp => ?_, hall.frames⟩
  rcases hall.jumps p hp with hp | hp
  · exact .inl hp
  · refine (List.mem_cons.1 hp).imp_left fun hp => ?_
    rw [depthsOf_append, h.ends, hp]
    exact List.mem_append_right _ (List.mem_singleton_self _)

/-- An exit is where the lines begin. -/
theorem label_front {name : String} (h : Leads ((name, d) :: exits) d lines d') :
    Leads exits d (.label name :: lines) d' := by
  have hall := (label name).append h
  refine ⟨hall.ends, fun p hp => ?_, hall.frames⟩
  rcases hall.jumps p hp with hp | hp
  · exact .inl hp
  · refine (List.mem_cons.1 hp).imp_left fun hp => ?_
    rw [hp]
    exact List.mem_cons_self

/-- A jump to an exit. -/
theorem jmp {name : String} (h : (name, d) ∈ exits) :
    Leads exits d [.instruction (.jmp name)] d :=
  of_frameless rfl (UInt16.add_zero d)
    (by simpa [depthsOf, Line.jump?, Instruction.jump?] using .inr h)

/-- A jump to an exit that is taken unless a register is zero. -/
theorem jnz {name : String} {r : Register} (h : (name, d) ∈ exits) :
    Leads exits d [.instruction (.jnz r name)] d :=
  of_frameless rfl (UInt16.add_zero d)
    (by simpa [depthsOf, Line.jump?, Instruction.jump?] using .inr h)

/-- Frame code, at depth 0. -/
theorem frameCode {code : List Instruction} (h : IsFrameCode code) :
    Leads exits 0 (code.map .instruction) 0 := by
  have hall : ∀ i ∈ code, i.isFrame = true := by
    cases h with
    | entry | exit => decide
    | entryWithRoom bytes => simp [prologue, reservation, Instruction.isFrame]
  have hrise : ∀ line ∈ code.map Line.instruction, rise [line] = 0 := by
    intro line hline
    obtain ⟨i, hi, rfl⟩ := List.mem_map.1 hline
    simp [rise, Line.isFrame, hall i hi]
  have hjumps : jumpsOf (code.map .instruction) = [] := by
    cases h with
    | entry | exit | entryWithRoom => rfl
  refine ⟨by rw [rise_eq_zero hrise, UInt16.add_zero], ?_, fun k line hk hframe => ⟨?_, ?_⟩⟩
  · simp [depthsOf_eq_nil hjumps]
  · rw [rise_eq_zero fun line hline => hrise line (List.mem_of_mem_take hline), UInt16.add_zero]
  · obtain ⟨hlt, -⟩ := List.getElem?_eq_some_iff.1 hk
    rw [List.length_map] at hlt
    exact ⟨0, code, h, ⟨[], [], by simp, rfl⟩, Nat.zero_le k, by omega⟩

end Leads

/-! ### Steady instructions -/

/-- The instruction leaves the stack alone and goes on to the next line. -/
def Instruction.isSteady (i : Instruction) : Bool :=
  i.growth == 0 && !i.isFrame && i.jump?.isNone

theorem Leads.steady {exits : List (String × Word)} {d : Word} {code : List Instruction}
    (h : code.all Instruction.isSteady = true) : Leads exits d (code.map .instruction) d := by
  have hsteady : ∀ i ∈ code, i.growth = 0 ∧ i.isFrame = false ∧ i.jump? = none := by
    simpa [Instruction.isSteady, and_assoc] using h
  refine .of_frameless ?_ ?_ ?_
  · simpa [Line.isFrame] using fun i hi => (hsteady i hi).2.1
  · rw [rise_eq_zero, UInt16.add_zero]
    intro line hline
    obtain ⟨i, hi, rfl⟩ := List.mem_map.1 hline
    simp [rise, Line.growth, (hsteady i hi).1]
  · have hjumps : jumpsOf (code.map .instruction) = [] := by
      rw [jumpsOf_map_instruction, List.filterMap_eq_nil_iff]
      exact fun i hi => (hsteady i hi).2.2
    simp [depthsOf_eq_nil hjumps]

end WordC
