import WordC.Proofs.Labels.Session

/-!
# Where lowering comes to

Lowering a program comes to its statements one by one, each in some session, also if it fails later
on.

* `Visits`: lowering comes to a statement in a session;
* `StandIn`: statements are lowered one after the other, and their lines stand among given ones;
* `visits_of_occurs`: lowering comes to all statements of a program that is lowered, and their lines
  stand among those of the program; `visits_function`: so it does to the function definitions.
-/

namespace WordC
open Lowering

/-! ### Parts of a statement -/

namespace Stmt

/-- The statements that lowering a statement comes to next. The outermost block of a function is not
among them, as it shares the scope of the parameters. -/
def nested : Stmt → List Stmt
  | .function _ _ body => body.items
  | .block _ items => items
  | .ifThen _ _ yes => [yes]
  | .ifElse _ _ yes no => [yes, no]
  | .whileLoop _ _ body | .forLoop _ _ _ _ body => [body]
  | .var .. | .prototype .. | .expr .. | .ret .. => []

/-- A statement stands among others or inside of them. -/
inductive Occurs (stmt : Stmt) : List Stmt → Prop
  | here {items : List Stmt} : Occurs stmt (stmt :: items)
  | next {item : Stmt} {items : List Stmt} (h : Occurs stmt items) : Occurs stmt (item :: items)
  | inside {item : Stmt} {items : List Stmt} (h : Occurs stmt item.nested) :
    Occurs stmt (item :: items)

namespace Occurs

variable {stmt : Stmt} {items : List Stmt}

theorem append (h : stmt.Occurs items) (more : List Stmt) : stmt.Occurs (items ++ more) := by
  induction h with
  | here => exact .here
  | next h ih => exact .next ih
  | inside h ih => exact .inside h

theorem of_mem {item : Stmt} (hitem : item ∈ items) (h : stmt.Occurs [item]) :
    stmt.Occurs items := by
  obtain ⟨before, after, rfl⟩ := List.append_of_mem hitem
  induction before with
  | nil => exact h.append after
  | cons first before ih => exact .next (ih (List.mem_append_right _ List.mem_cons_self))

theorem of_mem_functionsOfAll {f : Stmt} (hf : f ∈ functionsOfAll items)
    (hitems : ∀ item ∈ items, ∀ {f}, f ∈ item.functions → f.Occurs [item]) : f.Occurs items := by
  obtain ⟨item, hitem, hf⟩ := mem_functionsOfAll.1 hf
  exact of_mem hitem (hitems item hitem hf)

end Occurs

/-- The function definitions in a statement stand inside of it. -/
theorem occurs_of_mem_functions (stmt : Stmt) : ∀ {f : Stmt}, f ∈ stmt.functions →
    f.Occurs [stmt] := by
  induction stmt using Stmt.induct with
  | var pos decl | prototype pos head | expr pos e | ret pos value =>
    intro f hf
    rw [functions] at hf
    cases hf
  | function pos head body ih =>
    intro f hf
    rw [functions, ← functionsOfAll_items, List.mem_cons] at hf
    rcases hf with rfl | hf
    · exact .here
    · exact .inside (.of_mem_functionsOfAll hf ih)
  | block pos items ih =>
    intro f hf
    rw [functions] at hf
    exact .inside (.of_mem_functionsOfAll hf ih)
  | ifThen pos cond body ih | whileLoop pos cond body ih | forLoop pos init cond step body ih =>
    intro f hf
    rw [functions] at hf
    exact .inside (ih hf)
  | ifElse pos cond yes no ihy ihn =>
    intro f hf
    rw [functions, List.mem_append] at hf
    rcases hf with hf | hf
    · exact .inside ((ihy hf).append [no])
    · exact .inside (.next (ihn hf))

end Stmt

/-! ### Where lowering comes to -/

/-- Lowering a statement in the first session, it comes to the nested ones in the second. -/
inductive Enters : Stmt → Session → Session → Prop
  | function {s : Session} {pos : Position} {head : Signature} {body : Stmt} {table : SymbolTable}
    {p : Emission Session Unit} (hf : s.frame = none)
    (ht : s.symbols.declare head.name (functionSymbol head true) = .ok table)
    (hp : enterFunction pos head { s with symbols := table } = .ok p) :
    Enters (.function pos head body) s p.state
  | block {s : Session} {pos : Position} {items : List Stmt} (hf : s.frame.isSome = true) :
    Enters (.block pos items) s { s with symbols := s.symbols.openScope }
  /-- Outside of functions blocks open no scope. -/
  | fileBlock {s : Session} {pos : Position} {items : List Stmt} (hf : s.frame = none) :
    Enters (.block pos items) s s
  | ifThen {s : Session} {pos : Position} {cond : Expr} {yes : Stmt} {c : Emission Session Unit}
    (hc : branch cond (flowLabel s.scratch.labels) (flowLabel (s.scratch.labels + 1))
      (s.skipLabels 2) = .ok c) : Enters (.ifThen pos cond yes) s c.state
  | ifElse {s : Session} {pos : Position} {cond : Expr} {yes no : Stmt} {c : Emission Session Unit}
    (hc : branch cond (flowLabel s.scratch.labels) (flowLabel (s.scratch.labels + 1))
      (s.skipLabels 3) = .ok c) : Enters (.ifElse pos cond yes no) s c.state
  | whileLoop {s : Session} {pos : Position} {cond : Expr} {body : Stmt}
    {t : Emission Session Unit}
    (ht : loopTest (flowLabel (s.scratch.labels + 1)) (some cond) (s.skipLabels 2) = .ok t) :
    Enters (.whileLoop pos cond body) s t.state
  | forLoop {s : Session} {pos : Position} {init cond step : Option Expr} {body : Stmt}
    {i t : Emission Session Unit} (hi : evaluateOption init s = .ok i)
    (ht : loopTest (flowLabel (i.state.scratch.labels + 1)) cond (i.state.skipLabels 2) = .ok t) :
    Enters (.forLoop pos init cond step body) s t.state

/-- Lowering statements in the first session, it comes to the given one in the second. -/
inductive Visits : Session → List Stmt → Session → Stmt → Prop
  | here {s : Session} {stmt : Stmt} {items : List Stmt} : Visits s (stmt :: items) s stmt
  | next {s t : Session} {item stmt : Stmt} {items : List Stmt} {em : Emission Session Unit}
    (hitem : lowerStmt item s = .ok em) (h : Visits em.state items t stmt) :
    Visits s (item :: items) t stmt
  | inside {s s' t : Session} {item stmt : Stmt} {items : List Stmt} (hitem : Enters item s s')
    (h : Visits s' item.nested t stmt) : Visits s (item :: items) t stmt

/-- Entering a statement leads from valid sessions to valid ones. -/
theorem Enters.valid {stmt : Stmt} {s t : Session} (h : Enters stmt s t) {depth : Nat}
    (hs : s.Valid depth) : ∃ depth', t.Valid depth' := by
  cases h with
  | function hf ht hp => exact ⟨1, (hs.enterFunction hf ht (enterFunction_ok hp)).2.1⟩
  | block hf => exact ⟨depth + 1, (hs.openBlock hf).2⟩
  | fileBlock hf => exact ⟨depth, hs⟩
  | ifThen hc | ifElse hc => exact ⟨depth, (branch_emits hc).valid ⟨hs.symbols, hs.frame⟩⟩
  | whileLoop ht => exact ⟨depth, (loopTest_emits ht).valid ⟨hs.symbols, hs.frame⟩⟩
  | forLoop hi ht =>
    have hinit := (evaluateOption_emits hi).valid hs
    exact ⟨depth, (loopTest_emits ht).valid ⟨hinit.symbols, hinit.frame⟩⟩

theorem Visits.valid {s t : Session} {items : List Stmt} {stmt : Stmt} (h : Visits s items t stmt) :
    ∀ {depth : Nat}, s.Valid depth → ∃ depth', t.Valid depth' := by
  induction h with
  | here => exact fun hs => ⟨_, hs⟩
  | next hitem h ih => exact fun hs => ih ((lowerStmt_emits _ hitem).valid hs)
  | inside hitem h ih =>
    intro depth hs
    obtain ⟨_, hs'⟩ := hitem.valid hs
    exact ih hs'

/-- More statements behind the given ones change nothing before them. -/
theorem Visits.append {s t : Session} {items : List Stmt} {stmt : Stmt} (h : Visits s items t stmt)
    (more : List Stmt) : Visits s (items ++ more) t stmt := by
  induction h with
  | here => exact .here
  | next hitem h ih => exact .next hitem ih
  | inside hitem h ih => exact .inside hitem h

/-! ### Lines of the statements -/

/-- The statements are lowered one after the other, and the lines of each of them stand among the
given ones. -/
def StandIn : List Stmt → Session → List Line → Prop
  | [], _, _ => True
  | item :: items, s, lines => ∃ em, lowerStmt item s = .ok em ∧ em.lines <:+: lines ∧
    StandIn items em.state lines

theorem StandIn.singleton {stmt : Stmt} {s : Session} {em : Emission Session Unit}
    {lines : List Line} (h : lowerStmt stmt s = .ok em) (hlines : em.lines <:+: lines) :
    StandIn [stmt] s lines := ⟨em, h, hlines, trivial⟩

namespace Lowering

theorem lowerItems_standIn {items : List Stmt} {lines : List Line} :
    ∀ {s : Session} {em : Emission Session Unit}, lowerItems items s = .ok em →
    em.lines <:+: lines → StandIn items s lines := by
  induction items with
  | nil => exact fun _ _ => trivial
  | cons item items ih =>
    intro s em h hlines
    obtain ⟨a, b, ha, hb, rfl⟩ := lowerItems_cons_ok h
    have hfirst : a.lines <:+: a.lines ++ b.lines := ⟨[], b.lines, by simp⟩
    have hrest : b.lines <:+: a.lines ++ b.lines := ⟨a.lines, [], by simp⟩
    exact ⟨a, ha, hfirst.trans hlines, ih hb (hrest.trans hlines)⟩

variable {s : Session} {em : Emission Session Unit}

theorem lowerLoop_standIn {cond step : Option Expr} {body : Stmt}
    (h : lowerLoop cond step (lowerStmt body) s = .ok em) :
    ∃ t, loopTest (flowLabel (s.scratch.labels + 1)) cond (s.skipLabels 2) = .ok t ∧
      StandIn [body] t.state em.lines := by
  obtain ⟨t, b, u, ht, hb, -, rfl⟩ := lowerLoop_ok h
  exact ⟨t, ht, .singleton hb ⟨[.label (flowLabel s.scratch.labels)] ++ t.lines, _, by simp; rfl⟩⟩

/-- A statement that is lowered is entered if it has nested ones, and these are lowered in turn. -/
theorem lowerStmt_nested {stmt : Stmt} (h : lowerStmt stmt s = .ok em) :
    stmt.nested = [] ∨ ∃ s', Enters stmt s s' ∧ StandIn stmt.nested s' em.lines := by
  cases stmt with
  | var | prototype | expr | ret => exact .inl rfl
  | function pos head body =>
    rw [lowerStmt_function_apply] at h
    obtain ⟨hf, table, p, b, r, ht, hp, hb, -, rfl⟩ := lowerFunction_run h
    have hbody : b.lines <:+: [.label head.name] ++ ((prologue ++ r.value).map .instruction ++
        (b.lines ++ epilogue.map .instruction)) :=
      ⟨[.label head.name] ++ (prologue ++ r.value).map .instruction, epilogue.map .instruction,
        by simp⟩
    exact .inr ⟨_, .function hf ht hp, lowerItems_standIn hb hbody⟩
  | block pos items =>
    rw [lowerStmt, Emitter.visit_apply] at h
    obtain ⟨hf, a, ha, rfl⟩ | ⟨hf, ha⟩ := inScope_ok h
    · exact .inr ⟨_, .block hf, lowerItems_standIn ha (List.suffix_refl _).isInfix⟩
    · exact .inr ⟨s, .fileBlock hf, lowerItems_standIn ha (List.suffix_refl _).isInfix⟩
  | ifThen pos cond yes =>
    obtain ⟨c, y, hc, hy, rfl⟩ := lowerStmt_ifThen_ok h
    exact .inr ⟨_, .ifThen hc, .singleton hy ⟨c.lines, _, by simp; rfl⟩⟩
  | ifElse pos cond yes no =>
    obtain ⟨c, y, z, hc, hy, hz, rfl⟩ := lowerStmt_ifElse_ok h
    refine .inr ⟨_, .ifElse hc, y, hy, ⟨c.lines, _, by simp; rfl⟩, .singleton hz ?_⟩
    exact ⟨c.lines ++ (y.lines ++ [_, _]), [_], by simp; exact ⟨rfl, rfl, rfl⟩⟩
  | whileLoop pos cond body =>
    rw [lowerStmt, Emitter.visit_apply] at h
    obtain ⟨t, ht, hbody⟩ := lowerLoop_standIn h
    exact .inr ⟨_, .whileLoop ht, hbody⟩
  | forLoop pos init cond step body =>
    obtain ⟨i, l, hi, hl, rfl⟩ := lowerStmt_forLoop_ok h
    obtain ⟨t, ht, b, hb, hlines, -⟩ := lowerLoop_standIn hl
    have hloop : l.lines <:+: i.lines ++ l.lines := ⟨i.lines, [], by simp⟩
    exact .inr ⟨_, .forLoop hi ht, .singleton hb (hlines.trans hloop)⟩

/-- Lowering statements comes to all that stand among them or inside of them, and the lines of each
stand among those of all. -/
theorem visits_of_occurs {stmt : Stmt} {items : List Stmt} (h : stmt.Occurs items) :
    ∀ {s : Session} {lines : List Line}, StandIn items s lines →
      ∃ t em, Visits s items t stmt ∧ lowerStmt stmt t = .ok em ∧ em.lines <:+: lines := by
  induction h with
  | here =>
    rintro s lines ⟨em, hem, hlines, -⟩
    exact ⟨s, em, .here, hem, hlines⟩
  | next h ih =>
    rintro s lines ⟨em, hem, -, hitems⟩
    obtain ⟨t, em', hvisits, hstmt⟩ := ih hitems
    exact ⟨t, em', .next hem hvisits, hstmt⟩
  | inside h ih =>
    rintro s lines ⟨em, hem, hlines, -⟩
    obtain hnone | ⟨s', henters, hnested⟩ := lowerStmt_nested hem
    · rw [hnone] at h
      cases h
    · obtain ⟨t, em', hvisits, hstmt, hinner⟩ := ih hnested
      exact ⟨t, em', .inside henters hvisits, hstmt, hinner.trans hlines⟩

/-- Lowering a program comes to its function definitions, outside of functions. -/
theorem visits_function {program : Program} (h : lowerItems program .empty = .ok em)
    {pos : Position} {head : Signature} {body : Stmt}
    (hf : .function pos head body ∈ Stmt.functionsOfAll program) (after : List Line) :
    ∃ s em', Visits .empty program s (.function pos head body) ∧ s.Valid 0 ∧
      lowerStmt (.function pos head body) s = .ok em' ∧ em'.lines <:+: em.lines ++ after := by
  have hoccurs : (Stmt.function pos head body).Occurs program :=
    .of_mem_functionsOfAll hf fun item _ => item.occurs_of_mem_functions
  have hcode : em.lines <:+: em.lines ++ after := ⟨[], after, by simp⟩
  obtain ⟨s, em', hvisit, hem, hlines⟩ := visits_of_occurs hoccurs (lowerItems_standIn h hcode)
  obtain ⟨depth, hs⟩ := hvisit.valid .empty
  have houtside : s.frame = none := by
    rw [lowerStmt_function_apply] at hem
    exact (lowerFunction_ok hem).1
  obtain rfl := hs.frame.1 houtside
  exact ⟨s, em', hvisit, hs, hem, hlines⟩

end Lowering

end WordC
