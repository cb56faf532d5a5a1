import WordC.Proofs.Labels.Session

/-!
# Layout of the code

The lines of statements fall into segments: one for each function definition, and others for the
code around them (`Laid`). The jumps of a definition stay in its segment, and those of the code
around stay outside of all definitions (`LaidOut`, `lowerStmt_laidOut`).
-/

namespace WordC

/-- Lines that belong to a function definition or to none. -/
structure Segment where
  owner : Option Stmt
  lines : List Line

namespace Segment

/-- The lines of segments. -/
def linesOf (segments : List Segment) : List Line := segments.flatMap Segment.lines

/-- The lines of the segments that belong to no function definition. -/
def outsideOf (segments : List Segment) : List Line :=
  linesOf (segments.filter fun segment => segment.owner.isNone)

/-- The function definitions that segments belong to. -/
def ownersOf (segments : List Segment) : List Stmt := segments.filterMap Segment.owner

/-- A segment of a function definition holds the lines of that definition, and its jumps stay among
them. -/
def IsOwned (segment : Segment) : Prop :=
  ∀ f, segment.owner = some f →
    (∃ s t, Lowering.lowerStmt f s = .ok ⟨(), segment.lines, t⟩) ∧ JumpsInside [] segment.lines

variable (segments segments' : List Segment)

@[simp] theorem linesOf_append :
    linesOf (segments ++ segments') = linesOf segments ++ linesOf segments' := List.flatMap_append

@[simp] theorem outsideOf_append :
    outsideOf (segments ++ segments') = outsideOf segments ++ outsideOf segments' := by
  rw [outsideOf, List.filter_append, linesOf_append]
  rfl

@[simp] theorem ownersOf_append :
    ownersOf (segments ++ segments') = ownersOf segments ++ ownersOf segments' :=
  List.filterMap_append

variable {segments} in
/-- If the jumps of the code around stay there, no jump leaves the lines. -/
theorem jumpsInside_linesOf (h : ∀ segment ∈ segments, segment.IsOwned)
    (houtside : JumpsInside [] (outsideOf segments)) : JumpsInside [] (linesOf segments) := by
  intro x hx
  obtain ⟨segment, hsegment, hx⟩ : ∃ segment ∈ segments, x ∈ jumpsOf segment.lines := by
    simpa only [jumpsOf, linesOf, List.filterMap_flatMap, List.mem_flatMap] using hx
  left
  cases howner : segment.owner with
  | some f =>
    have hlabel := ((h segment hsegment f howner).2 x hx).resolve_right List.not_mem_nil
    rw [labelsOf, linesOf, List.filterMap_flatMap, List.mem_flatMap]
    exact ⟨segment, hsegment, hlabel⟩
  | none =>
    have hjump : x ∈ jumpsOf (outsideOf segments) := by
      rw [jumpsOf, outsideOf, linesOf, List.filterMap_flatMap, List.mem_flatMap]
      exact ⟨segment, List.mem_filter.2 ⟨hsegment, by simp [howner]⟩, hx⟩
    have hlabel := (houtside x hjump).resolve_right List.not_mem_nil
    rw [labelsOf, outsideOf, linesOf, List.filterMap_flatMap, List.mem_flatMap] at hlabel
    rw [labelsOf, linesOf, List.filterMap_flatMap, List.mem_flatMap]
    obtain ⟨other, hother, hmem⟩ := hlabel
    exact ⟨other, (List.mem_filter.1 hother).1, hmem⟩

end Segment

open Segment

/-- The lines fall into segments, one for each of the function definitions, in order; the given code
lies outside of them. -/
def Laid (functions : List Stmt) (outside lines : List Line) : Prop :=
  ∃ segments : List Segment, linesOf segments = lines ∧ outsideOf segments = outside ∧
    ownersOf segments = functions ∧ ∀ segment ∈ segments, segment.IsOwned

namespace Laid

variable {functions functions' : List Stmt} {outside outside' lines lines' : List Line}

theorem code (lines : List Line) : Laid [] lines lines :=
  ⟨[⟨none, lines⟩], by simp [linesOf], by simp [outsideOf, linesOf], rfl, by simp [IsOwned]⟩

theorem append (h : Laid functions outside lines) (h' : Laid functions' outside' lines') :
    Laid (functions ++ functions') (outside ++ outside') (lines ++ lines') := by
  obtain ⟨segments, rfl, rfl, rfl, hsegments⟩ := h
  obtain ⟨segments', rfl, rfl, rfl, hsegments'⟩ := h'
  refine ⟨segments ++ segments', by simp, by simp, by simp, fun segment hsegment => ?_⟩
  rcases List.mem_append.1 hsegment with hsegment | hsegment
  · exact hsegments segment hsegment
  · exact hsegments' segment hsegment

/-- Code behind the lines. -/
theorem appendCode (h : Laid functions outside lines) (code : List Line) :
    Laid functions (outside ++ code) (lines ++ code) := by
  have hall := h.append (.code code)
  rwa [List.append_nil] at hall

/-- Code in front of the lines. -/
theorem prependCode (h : Laid functions outside lines) (code : List Line) :
    Laid functions (code ++ outside) (code ++ lines) := (Laid.code code).append h

theorem function {f : Stmt} {s t : Session} (h : Lowering.lowerStmt f s = .ok ⟨(), lines, t⟩)
    (hjumps : JumpsInside [] lines) : Laid [f] [] lines := by
  refine ⟨[⟨some f, lines⟩], by simp [linesOf], rfl, rfl, ?_⟩
  simp only [List.mem_singleton, forall_eq]
  rintro g ⟨⟩
  exact ⟨⟨s, t, h⟩, hjumps⟩

theorem jumpsInside (h : Laid functions outside lines) (houtside : JumpsInside [] outside) :
    JumpsInside [] lines := by
  obtain ⟨segments, rfl, rfl, -, hsegments⟩ := h
  exact jumpsInside_linesOf hsegments houtside

end Laid

namespace Lowering

variable {s : Session} {em : Emission Session Unit}

/-- The lines fall into segments, and the jumps of the code around the function definitions stay
there. -/
def LaidOut (functions : List Stmt) (lines : List Line) : Prop :=
  ∃ outside, Laid functions outside lines ∧ JumpsInside [] outside

namespace LaidOut

variable {functions functions' : List Stmt} {lines lines' : List Line}

theorem code (h : JumpsInside [] lines) : LaidOut [] lines := ⟨lines, .code lines, h⟩

theorem append (h : LaidOut functions lines) (h' : LaidOut functions' lines') :
    LaidOut (functions ++ functions') (lines ++ lines') := by
  obtain ⟨outside, hlaid, hjumps⟩ := h
  obtain ⟨outside', hlaid', hjumps'⟩ := h'
  exact ⟨outside ++ outside', hlaid.append hlaid', hjumps.append hjumps'⟩

end LaidOut

/-! ### Expressions and tests -/

theorem evaluateOption_jumps {e : Option Expr} (h : evaluateOption e s = .ok em) :
    JumpsInside [] em.lines := by
  cases e with
  | none =>
    rw [evaluateOption_none_ok h]
    exact .plain rfl
  | some e =>
    obtain ⟨a, ha, rfl⟩ := evaluateOnly_ok h
    exact lowerExpr_jumps e ha

theorem branch_jumps {cond : Expr} {ok otherwise : String}
    (h : branch cond ok otherwise s = .ok em) : JumpsInside [otherwise] em.lines := by
  obtain ⟨a, ha, rfl⟩ := branch_ok h
  refine (lowerExpr_jumps cond ha).weaken.append ?_
  simp [JumpsInside, Instruction.jump?]

theorem loopTest_jumps {done : String} {cond : Option Expr} (h : loopTest done cond s = .ok em) :
    JumpsInside [done] em.lines := by
  cases cond with
  | none =>
    rw [Emitter.pure_eq_ok_iff.1 h]
    exact .plain rfl
  | some cond => exact branch_jumps (loopTest_some_ok h)

/-! ### Statements -/

theorem lowerLoop_laidOut {cond step : Option Expr} {body : Stmt}
    (hbody : ∀ {s : Session} {em : Emission Session Unit}, lowerStmt body s = .ok em →
      LaidOut body.functions em.lines)
    (h : lowerLoop cond step (lowerStmt body) s = .ok em) : LaidOut body.functions em.lines := by
  obtain ⟨t, b, u, ht, hb, hu, rfl⟩ := lowerLoop_ok h
  obtain ⟨outside, hlaid, hjumps⟩ := hbody hb
  let top := flowLabel s.scratch.labels
  let done := flowLabel (s.scratch.labels + 1)
  have hlast : JumpsInside [top, done] [.instruction (.jmp top), .label done] := by
    simp [JumpsInside, Instruction.jump?]
  have htest : JumpsInside [top, done] t.lines := (loopTest_jumps ht).mono (by simp [done])
  refine ⟨[.label top] ++ (t.lines ++ (outside ++ (u.lines ++ [.instruction (.jmp top),
    .label done]))), ?_, ?_⟩
  · exact ((hlaid.appendCode _).prependCode t.lines).prependCode [.label top]
  · -- the test leaves the loop for its end, and the last jump goes back to its start
    refine JumpsInside.close ((JumpsInside.plain rfl).append (htest.append (hjumps.weaken.append
      ((evaluateOption_jumps hu).weaken.append hlast)))) ?_
    simp

theorem lowerItems_laidOut_of {items : List Stmt}
    (hitems : ∀ item ∈ items, ∀ {s : Session} {em : Emission Session Unit},
      lowerStmt item s = .ok em → LaidOut item.functions em.lines) :
    ∀ {s : Session} {em : Emission Session Unit}, lowerItems items s = .ok em →
      LaidOut (Stmt.functionsOfAll items) em.lines := by
  induction items with
  | nil =>
    intro s em h
    rw [lowerItems_nil_ok h, Stmt.functionsOfAll]
    exact .code (.plain rfl)
  | cons item items ih =>
    intro s em h
    obtain ⟨a, b, ha, hb, rfl⟩ := lowerItems_cons_ok h
    rw [List.forall_mem_cons] at hitems
    rw [Stmt.functionsOfAll]
    exact (hitems.1 ha).append (ih hitems.2 hb)

/-- No function is defined inside another one, so the lines of a definition make one segment. -/
theorem functions_eq_nil_of_lowerItems {body : Stmt} (h : lowerItems body.items s = .ok em)
    (hs : s.frame ≠ none) : body.functions = [] := by
  have hitems := (lowerItems_emits h).definitions_eq_nil hs
  rw [Stmt.contentsOfAll_items] at hitems
  exact Stmt.functions_eq_nil hitems

/-- The jumps of a function definition stay in its segment, and those of the code around stay
outside of all definitions. -/
theorem lowerStmt_laidOut (stmt : Stmt) : ∀ {s : Session} {em : Emission Session Unit},
    lowerStmt stmt s = .ok em → LaidOut stmt.functions em.lines := by
  induction stmt using Stmt.induct with
  | var pos decl =>
    intro s em h
    rw [lowerStmt, Emitter.visit_apply] at h
    cases hinit : decl.init with
    | none =>
      obtain ⟨p, table, -, -, rfl⟩ := lowerVariable_none_ok hinit h
      exact .code (.plain rfl)
    | some init =>
      obtain ⟨a, p, table, address, ha, -, -, -, rfl⟩ := lowerVariable_some_ok hinit h
      exact .code ((lowerExpr_jumps init ha).append (.plain rfl))
  | prototype pos head =>
    intro s em h
    rw [lowerStmt, Emitter.visit_apply] at h
    obtain ⟨-, table, -, rfl⟩ := declareFunction_ok h
    exact .code (.plain rfl)
  | function pos head body ih =>
    intro s em h
    have hrun := h
    rw [lowerStmt_function_apply] at h
    obtain ⟨-, table, p, b, reserve, -, hp, hb, hreserve, rfl⟩ := lowerFunction_ok h
    obtain ⟨outside, hlaid, hjumps⟩ := lowerItems_laidOut_of ih hb
    obtain ⟨-, -, hframe⟩ := declareParams_ok hp
    rw [Stmt.functions, functions_eq_nil_of_lowerItems hb (by simp [hframe])]
    have hentry : jumpsOf ((prologue ++ reserve).map .instruction) = [] := by
      rcases hreserve with rfl | ⟨bytes, rfl⟩ <;> rfl
    refine ⟨[], .function hrun ?_, .plain rfl⟩
    exact (JumpsInside.plain rfl).append ((JumpsInside.plain hentry).append
      ((hlaid.jumpsInside hjumps).append (.plain rfl)))
  | block pos items ih =>
    intro s em h
    rw [lowerStmt, Emitter.visit_apply] at h
    rw [Stmt.functions]
    obtain ⟨-, a, ha, rfl⟩ | ⟨-, ha⟩ := inScope_ok h
    · have hitems := lowerItems_laidOut_of ih ha
      exact hitems
    · exact lowerItems_laidOut_of ih ha
  | expr pos e =>
    intro s em h
    rw [lowerStmt, Emitter.visit_apply] at h
    obtain ⟨a, ha, rfl⟩ := evaluateOnly_ok h
    exact .code (lowerExpr_jumps e ha)
  | ifThen pos cond yes ih =>
    intro s em h
    obtain ⟨c, y, hc, hy, rfl⟩ := lowerStmt_ifThen_ok h
    obtain ⟨outside, hlaid, hjumps⟩ := ih hy
    -- the branch is left for the label behind it
    refine ⟨_, (hlaid.appendCode _).prependCode _, ?_⟩
    refine JumpsInside.close ((branch_jumps hc).append (hjumps.weaken.append (.plain rfl))) ?_
    simp
  | ifElse pos cond yes no ihy ihn =>
    intro s em h
    obtain ⟨c, y, z, hc, hy, hz, rfl⟩ := lowerStmt_ifElse_ok h
    obtain ⟨outside, hlaid, hjumps⟩ := ihy hy
    obtain ⟨outside', hlaid', hjumps'⟩ := ihn hz
    let otherwise := flowLabel (s.scratch.labels + 1)
    let done := flowLabel (s.scratch.labels + 2)
    have hmiddle : JumpsInside [otherwise, done] [.instruction (.jmp done), .label otherwise] := by
      simp [JumpsInside, Instruction.jump?]
    have hbranch : JumpsInside [otherwise, done] c.lines :=
      (branch_jumps hc).mono (by simp [otherwise])
    refine ⟨_, (hlaid.append ((hlaid'.appendCode _).prependCode _)).prependCode _, ?_⟩
    refine JumpsInside.close (hbranch.append (hjumps.weaken.append (hmiddle.append
      (hjumps'.weaken.append (.plain rfl))))) ?_
    simp [otherwise, done]
  | whileLoop pos cond body ih =>
    intro s em h
    rw [lowerStmt, Emitter.visit_apply] at h
    rw [Stmt.functions]
    exact lowerLoop_laidOut ih h
  | forLoop pos init cond step body ih =>
    intro s em h
    obtain ⟨i, l, hi, hl, rfl⟩ := lowerStmt_forLoop_ok h
    exact (LaidOut.code (evaluateOption_jumps hi)).append (lowerLoop_laidOut ih hl)
  | ret pos value =>
    intro s em h
    rw [lowerStmt, Emitter.visit_apply] at h
    cases value with
    | none =>
      obtain ⟨-, rfl⟩ := lowerReturn_none_ok h
      exact .code (.plain rfl)
    | some e =>
      obtain ⟨-, a, ha, rfl⟩ := lowerReturn_some_ok h
      exact .code ((lowerExpr_jumps e ha).append (.plain rfl))

end Lowering

end WordC
