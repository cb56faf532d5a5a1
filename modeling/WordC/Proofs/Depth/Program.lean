import WordC.Proofs.Depth.Boundaries
import WordC.Proofs.Labels.Program

/-!
# The depth of the stack in a program

Every line of a listing has a depth that all ways through the code agree on:
`Listing.ofProgram_stackDepth`.

* `StackDepth`: what it is for depths to be consistent;
* `Walk`: a way through lines, by whatever jumps, with what it adds to the stack.
-/

namespace WordC

open Lowering

/-! ### Boundaries -/

/-- The event happens in lowering the program when so many lines of its code have been emitted. -/
def Program.HappensAt (program : Program) (event : Event) (n : Nat) : Prop :=
  ∃ before pool after, (recordItems program .empty).history = before ++ ⟨pool, event⟩ :: after ∧
    (before.filterMap Moment.line?).length = n

/-- A statement begins or ends in front of line `n`. -/
def Program.IsBoundary (program : Program) (n : Nat) : Prop :=
  ∃ stmt, program.HappensAt (.enter stmt) n ∨ program.HappensAt (.leave stmt) n

/-! ### Consistent depths -/

/-- The depths in front of the lines are consistent. -/
structure StackDepth (program : Program) (lines : List Line) (depth : Nat → Word) : Prop where
  /-- Only the code of a frame makes or leaves a frame. -/
  framed : ∀ k line, lines[k]? = some line → line.isFrame = true → Framed lines k
  /-- A line outside of it changes the depth by its growth. -/
  falls : ∀ k line, lines[k]? = some line → line.isFrame = false →
    depth (k + 1) = depth k + line.growth
  /-- A jump has the depth of its label. -/
  jumps : ∀ k line x, lines[k]? = some line → line.jump? = some x →
    ∃ j, lineOf lines x = some j ∧ depth j = depth k
  /-- Nothing is on the stack where a statement begins or ends. -/
  bounds : ∀ n, program.IsBoundary n → depth n = 0
  /-- Nothing is on the stack at the labels of ifs and loops. -/
  labels : ∀ x ∈ statementLabels 0 (Stmt.labelOwnersOfAll program),
    ∃ j, lineOf lines x = some j ∧ depth j = 0
  /-- Nothing is on the stack behind a prologue and in front of an epilogue. -/
  frames : ∀ k code, IsFrameCode code → CodeAt lines k (code.map .instruction) →
    depth k = 0 ∧ depth (k + code.length) = 0

/-- From one line control can come to another, outside of the code of frames and passing over calls,
and the stack is so much deeper then. A jump may be taken or not. -/
inductive Walk (lines : List Line) : Nat → Nat → Word → Prop
  | refl (i : Nat) : Walk lines i i 0
  | fall {i j : Nat} {line : Line} {d : Word} : lines[i]? = some line → line.isFrame = false →
      Walk lines (i + 1) j d → Walk lines i j (line.growth + d)
  | jump {i target j : Nat} {line : Line} {x : String} {d : Word} : lines[i]? = some line →
      line.jump? = some x → lineOf lines x = some target → Walk lines target j d → Walk lines i j d

/-- The depth at the end of a walk is that at its begin and what the walk adds. -/
theorem StackDepth.walk {program : Program} {lines : List Line} {depth : Nat → Word} {i j : Nat}
    {d : Word} (h : StackDepth program lines depth) (hwalk : Walk lines i j d) :
    depth j = depth i + d := by
  induction hwalk with
  | refl i => rw [UInt16.add_zero]
  | fall hline hframe _ ih => rw [ih, h.falls _ _ hline hframe, UInt16.add_assoc]
  | jump hline hjump htarget _ ih =>
    obtain ⟨j, hj, hdepth⟩ := h.jumps _ _ _ hline hjump
    rw [htarget] at hj
    cases hj
    rw [ih, hdepth]

/-! ### Depths by the lines in front -/

/-- The data behind the code leave the stack alone. -/
theorem leads_dataLines (s : Session) : Leads [] 0 (dataLines s) 0 := by
  have hdata {line : Line} (hline : line ∈ dataLines s) :
      line.isFrame = false ∧ line.growth = 0 := by
    cases line with
    | instruction i => exact absurd (isInstruction_of_mem_dataLines hline) Bool.noConfusion
    | _ => exact ⟨rfl, rfl⟩
  refine .of_frameless ?_ ?_ ?_
  · rw [List.all_eq_true]
    exact fun line hline => by rw [(hdata hline).1]; rfl
  · rw [rise_eq_zero, UInt16.add_zero]
    exact fun line hline => by rw [rise_cons, (hdata hline).1, (hdata hline).2]; rfl
  · rw [depthsOf_eq_nil (jumpsOf_dataLines s)]
    nofun

/-- A label is found at the depth it stands with. -/
theorem exists_lineOf_of_mem_depthsOf {lines : List Line} {p : String × Word}
    (hu : (labelsOf lines).Nodup) (h : p ∈ depthsOf Line.label? 0 lines) :
    ∃ j, lineOf lines p.1 = some j ∧ rise (lines.take j) = p.2 := by
  obtain ⟨j, line, hline, hname, hdepth⟩ := mem_depthsOf.1 h
  have hcode : CodeAt lines j [.label p.1] := by
    cases line with
    | label x =>
      cases hname
      obtain ⟨hlt, hget⟩ := List.getElem?_eq_some_iff.1 hline
      refine ⟨lines.take j, lines.drop (j + 1), ?_, List.length_take_of_le hlt.le⟩
      rw [← hget, List.singleton_append, ← List.drop_eq_getElem_cons hlt, List.take_append_drop]
    | _ => cases hname
  exact ⟨j, lineOf_of_codeAt hu hcode, by rw [hdepth, UInt16.zero_add]⟩

theorem rise_take_succ {lines : List Line} {k : Nat} {line : Line} (h : lines[k]? = some line) :
    rise (lines.take (k + 1)) = rise (lines.take k) + rise [line] := by
  rw [List.take_add_one, h, rise_append]
  rfl

/-- Frame code in lines that lead from depth 0 is entered and left at depth 0. -/
theorem Leads.rise_frameCode {lines : List Line} {code : List Instruction} {k : Nat}
    (h : Leads [] 0 lines 0) (hcode : IsFrameCode code)
    (hat : CodeAt lines k (code.map .instruction)) :
    rise (lines.take k) = 0 ∧ rise (lines.take (k + code.length)) = 0 := by
  have hwhole : Leads [] 0 (code.map .instruction) 0 := .frameCode hcode
  obtain ⟨i, hi, hframe⟩ : ∃ i, code[0]? = some i ∧ i.isFrame = true := by
    cases hcode with
    | entry | entryWithRoom | exit => exact ⟨_, rfl, rfl⟩
  have hline : lines[k]? = some (.instruction i) :=
    hat.getElem? (n := 0) (by rw [List.getElem?_map, hi]; rfl)
  obtain ⟨hstart, -⟩ := h.frames k _ hline hframe
  obtain ⟨before, after, rfl, rfl⟩ := hat
  rw [List.take_left, UInt16.zero_add] at hstart
  refine ⟨by rw [List.take_left, hstart], ?_⟩
  rw [List.take_length_add_append, List.take_left' (List.length_map _), rise_append, hstart,
    hwhole.ends]

/-! ### Programs -/

/-- The lines in front of a begin or an end of a statement rise by nothing. -/
theorem Program.IsBoundary.rise_take {program : Program} {n : Nat} {out : Unit × Session}
    (h : program.IsBoundary n) (hout : (recordItems program .empty).outcome = .ok out)
    (rest : List Line) : rise (((recordItems program .empty).lines ++ rest).take n) = 0 := by
  obtain ⟨event, hevent, before, pool, after, hhistory, rfl⟩ :
      ∃ event, (∀ p, Moment.line? ⟨p, event⟩ = none) ∧ program.HappensAt event n := by
    obtain ⟨stmt, h | h⟩ := h
    · exact ⟨_, fun _ => rfl, h⟩
    · exact ⟨_, fun _ => rfl, h⟩
  rw [Recording.lines, hhistory, List.filterMap_append, List.append_assoc, List.take_left]
  exact (lowerItems_level program _ _ out hout).bounds before _ after hhistory (hevent pool)

theorem exists_happensAt {program : Program} {event : Event}
    (h : event ∈ (recordItems program .empty).history.map Moment.event) :
    ∃ n, program.HappensAt event n := by
  obtain ⟨m, hm, rfl⟩ := List.mem_map.1 h
  obtain ⟨before, after, hhistory⟩ := List.append_of_mem hm
  exact ⟨_, before, m.pool, after, hhistory, rfl⟩

/-- The depth in front of a line is what the lines in front of it rise by. -/
theorem stackDepth_rise {program : Program} {e : Emission Session Unit}
    (h : lowerItems program .empty = .ok e) :
    StackDepth program (e.lines ++ dataLines e.state)
      fun k => rise ((e.lines ++ dataLines e.state).take k) := by
  have hsettles := lowerItems_settles h
  have hleads : Leads [] 0 (e.lines ++ dataLines e.state) 0 :=
    Leads.append hsettles.leads (leads_dataLines e.state)
  have hu := program_labels_nodup h
  refine ⟨fun k line hline hframe => (hleads.frames k line hline hframe).2, ?_, ?_, ?_, ?_, ?_⟩
  · intro k line hline hframe
    simp [rise_take_succ hline, rise, hframe]
  · intro k line x hline hjump
    have hmem : (x, rise ((e.lines ++ dataLines e.state).take k)) ∈
        depthsOf Line.jump? 0 (e.lines ++ dataLines e.state) :=
      mem_depthsOf.2 ⟨k, line, hline, hjump, (UInt16.zero_add _).symm⟩
    exact exists_lineOf_of_mem_depthsOf hu ((hleads.jumps _ hmem).resolve_right List.not_mem_nil)
  · intro n hn
    obtain ⟨out, hout, rfl⟩ := Emitter.exists_outcome h Session.pool
    exact hn.rise_take hout _
  · intro x hx
    have hmem := hsettles.owned x hx
    refine exists_lineOf_of_mem_depthsOf (p := (x, 0)) hu ?_
    rw [depthsOf_append]
    exact List.mem_append_left _ hmem
  · exact fun k code hcode hat => hleads.rise_frameCode hcode hat

/-- The depth of the stack is consistent. In a program that can be lowered, every statement begins
and ends, every flow label has its owner, and there are depths as `StackDepth` says; so no walk from
a begin or an end of a statement to another one leaves anything on the stack, or takes off more than
it has put there. -/
theorem Listing.ofProgram_stackDepth {file : String} {program : Program} {listing : Listing}
    (h : Listing.ofProgram file program = .ok listing) :
    ∃ session, (recordItems program .empty).outcome = .ok ((), session) ∧
      listing.lines = (recordItems program .empty).lines ++ dataLines session ∧
      session.scratch.labels = (Stmt.labelOwnersOfAll program).length ∧
      (∀ stmt ∈ Stmt.partsOfAll program, (∃ n, program.HappensAt (.enter stmt) n) ∧
        ∃ n, program.HappensAt (.leave stmt) n) ∧
      (∃ depth, StackDepth program listing.lines depth) ∧
      ∀ i j d, program.IsBoundary i → program.IsBoundary j → Walk listing.lines i j d → d = 0 := by
  obtain ⟨e, he, rfl⟩ := Listing.ofProgram_ok h
  have hdepth := stackDepth_rise he
  have hsettles := lowerItems_settles he
  obtain ⟨⟨_, session⟩, hout, rfl⟩ := Emitter.exists_outcome he Session.pool
  refine ⟨session, hout, rfl, ?_, fun stmt hstmt => ?_, ⟨_, hdepth⟩, fun i j d hi hj hwalk => ?_⟩
  · exact hsettles.labels.trans (Nat.zero_add _)
  · obtain ⟨henter, hleave⟩ := lowerItems_covers program _ _ _ hout stmt hstmt
    exact ⟨exists_happensAt henter, exists_happensAt hleave⟩
  · have hends := hdepth.walk hwalk
    rwa [hdepth.bounds i hi, hdepth.bounds j hj, UInt16.zero_add, eq_comm] at hends

/-- In `while (f(1, 2 && 3)) {}` the conjunction ends behind the first argument, and its label
stands two bytes deep. -/
theorem Listing.ofProgram_stackDepth_argument :
    let body : Stmt := .block default []
    let program : Program :=
      [.prototype default ⟨"f", .int, [⟨"a", .int⟩, ⟨"b", .int⟩]⟩,
       .whileLoop default (.call default (.name default "f") [.number default 1,
         .logical default .and [.number default 2, .number default 3]]) body]
    let lines : List Line :=
      [.label "L0", .instruction (.mov (Register.general 0) (.label "f")),
       .instruction (.mov (Register.general 1) (.immediate 1)), .instruction (.push (.general 1)),
       .instruction (.mov (Register.general 1) (.immediate 0)),
       .instruction (.mov (Register.general 2) (.immediate 2)),
       .instruction (.jnz (.general 2) "L4"), .instruction (.jmp "L3"), .label "L4",
       .instruction (.mov (Register.general 2) (.immediate 3)),
       .instruction (.jnz (.general 2) "L5"), .instruction (.jmp "L3"), .label "L5",
       .instruction (.mov (Register.general 1) (.immediate 1)), .label "L3",
       .instruction (.push (.general 1)), .instruction (.call (.general 0)),
       .instruction (.add .sp (.immediate 4)),
       .instruction (.mov (Register.general 0) Register.rv),
       .instruction (.jnz (.general 0) "L2"), .instruction (.jmp "L1"), .label "L2",
       .instruction (.jmp "L0"), .label "L1"]
    Listing.ofProgram "main.c" program = .ok ⟨"main.c", lines⟩ ∧
      statementLabels 0 (Stmt.labelOwnersOfAll program) = ["L0", "L1", "L2"] ∧
      (∃ n, program.HappensAt (.enter body) n) ∧
      (∃ depth, StackDepth program lines depth ∧ depth 14 = 2) ∧
      ∀ i j d, program.IsBoundary i → program.IsBoundary j → Walk lines i j d → d = 0 := by
  intro body program lines
  have hlower : Listing.ofProgram "main.c" program = .ok ⟨"main.c", lines⟩ := by decide +kernel
  have howned : statementLabels 0 (Stmt.labelOwnersOfAll program) = ["L0", "L1", "L2"] := by
    decide +kernel
  obtain ⟨session, -, -, -, hparts, ⟨depth, hdepth⟩, hwalks⟩ := Listing.ofProgram_stackDepth hlower
  refine ⟨hlower, howned, (hparts body ?_).1, ⟨depth, hdepth, ?_⟩, hwalks⟩
  · simp [program, Stmt.partsOfAll, Stmt.parts]
  · -- from the begin of the loop through the first argument and the jump out of the conjunction
    obtain ⟨d, hwalk, hd⟩ : ∃ d, Walk lines 0 14 d ∧ d = 2 :=
      ⟨_, .fall rfl rfl (.fall rfl rfl (.fall rfl rfl (.fall rfl rfl (.fall rfl rfl (.fall rfl rfl
        (.fall rfl rfl (.jump rfl rfl rfl (.refl 14)))))))), rfl⟩
    have htop : depth 0 = 0 := by
      obtain ⟨j, hj, hzero⟩ := hdepth.labels "L0" (by rw [howned]; exact List.mem_cons_self)
      cases hj
      exact hzero
    rw [hdepth.walk hwalk, htop, hd, UInt16.zero_add]

end WordC
