import WordC.Proofs.Labels.Expr
import WordC.Proofs.Lowering.Stmt

/-!
# Labels of statements

The lines of a statement define the flow labels that were handed out and the functions of the
statement, each of them once: `lowerStmt_labels`.
-/

namespace WordC

namespace Lowering

variable {s : Session} {em : Emission Session Unit}

/-- The flow labels that are handed out by an emitter, and the names, are defined by its lines. -/
def LabelsFrom (s : Session) (names : List String) (em : Emission Session Unit) : Prop :=
  Defines s.scratch.labels em.state.scratch.labels names em.lines

theorem evaluateOption_labels {e : Option Expr} (h : evaluateOption e s = .ok em) :
    LabelsFrom s [] em := by
  cases e with
  | none =>
    rw [evaluateOption_none_ok h]
    exact .plain _ rfl
  | some e =>
    obtain ⟨a, ha, rfl⟩ := evaluateOnly_ok h
    exact lowerExpr_labels e ha

theorem branch_labels {cond : Expr} {ok otherwise : String}
    (h : branch cond ok otherwise s = .ok em) : LabelsFrom s [ok] em := by
  obtain ⟨a, ha, rfl⟩ := branch_ok h
  have hok : Defines a.state.labels a.state.labels [ok]
      [.instruction (.jnz a.value ok), .instruction (.jmp otherwise), .label ok] :=
    .named _ rfl rfl
  exact (lowerExpr_labels cond ha).append hok

theorem loopTest_labels {done : String} {cond : Option Expr} (h : loopTest done cond s = .ok em) :
    LabelsFrom s [] em := by
  cases cond with
  | none =>
    rw [Emitter.pure_eq_ok_iff.1 h]
    exact .plain _ rfl
  | some cond =>
    exact Defines.absorb (n := 1) (branch_labels (loopTest_some_ok h)) (.refl _)

theorem lowerLoop_labels {cond step : Option Expr} {body : Stmt}
    (hbody : ∀ {s : Session} {em : Emission Session Unit}, lowerStmt body s = .ok em →
      LabelsFrom s body.definitions em)
    (h : lowerLoop cond step (lowerStmt body) s = .ok em) : LabelsFrom s body.definitions em := by
  obtain ⟨t, b, u, ht, hb, hu, rfl⟩ := lowerLoop_ok h
  have htop : Defines (s.scratch.labels + 2) (s.scratch.labels + 2) [flowLabel s.scratch.labels]
      [.label (flowLabel s.scratch.labels)] := .named _ rfl rfl
  have hdone : Defines u.state.scratch.labels u.state.scratch.labels
      [flowLabel (s.scratch.labels + 1)] [.instruction (.jmp (flowLabel s.scratch.labels)),
        .label (flowLabel (s.scratch.labels + 1))] := .named _ rfl rfl
  have hparts := htop.append ((loopTest_labels ht).append ((hbody hb).append
    ((evaluateOption_labels hu).append hdone)))
  rw [List.nil_append, List.nil_append] at hparts
  exact hparts.absorb (List.perm_append_comm.append_left [flowLabel s.scratch.labels])

theorem lowerItems_labels_of {items : List Stmt}
    (hitems : ∀ item ∈ items, ∀ {s : Session} {em : Emission Session Unit},
      lowerStmt item s = .ok em → LabelsFrom s item.definitions em) :
    ∀ {s : Session} {em : Emission Session Unit}, lowerItems items s = .ok em →
      LabelsFrom s (Stmt.definitionsOfAll items) em := by
  induction items with
  | nil =>
    intro s em h
    rw [lowerItems_nil_ok h, Stmt.definitionsOfAll]
    exact .plain _ rfl
  | cons item items ih =>
    intro s em h
    obtain ⟨a, b, ha, hb, rfl⟩ := lowerItems_cons_ok h
    rw [List.forall_mem_cons] at hitems
    rw [Stmt.definitionsOfAll]
    exact (hitems.1 ha).append (ih hitems.2 hb)

/-- A statement defines the flow labels that it was handed out, and its functions. -/
theorem lowerStmt_labels (stmt : Stmt) : ∀ {s : Session} {em : Emission Session Unit},
    lowerStmt stmt s = .ok em → LabelsFrom s stmt.definitions em := by
  induction stmt using Stmt.induct with
  | var pos decl =>
    intro s em h
    rw [lowerStmt, Emitter.visit_apply] at h
    cases hinit : decl.init with
    | none =>
      obtain ⟨p, table, -, -, rfl⟩ := lowerVariable_none_ok hinit h
      exact .plain _ rfl
    | some init =>
      obtain ⟨a, p, table, address, ha, -, -, -, rfl⟩ := lowerVariable_some_ok hinit h
      exact (lowerExpr_labels init ha).append (.plain _ rfl)
  | prototype pos head =>
    intro s em h
    rw [lowerStmt, Emitter.visit_apply] at h
    obtain ⟨-, table, -, rfl⟩ := declareFunction_ok h
    exact .plain _ rfl
  | function pos head body ih =>
    intro s em h
    rw [lowerStmt_function_apply] at h
    obtain ⟨-, table, p, b, reserve, -, hp, hb, -, rfl⟩ := lowerFunction_ok h
    obtain ⟨-, hscratch, -⟩ := declareParams_ok hp
    have hbody : Defines s.scratch.labels b.state.scratch.labels body.definitions b.lines := by
      have hitems := lowerItems_labels_of ih hb
      rwa [LabelsFrom, hscratch, Stmt.definitionsOfAll_items] at hitems
    have hentry : ((prologue ++ reserve).map Line.instruction).all Line.isInstruction = true :=
      all_isInstruction_map _
    have hhead : Defines s.scratch.labels s.scratch.labels [head.name] [.label head.name] :=
      .named _ rfl rfl
    have hall := hhead.append
      ((Defines.plain _ hentry).append (hbody.append (.plain _ (all_isInstruction_map epilogue))))
    rw [List.nil_append, List.append_nil] at hall
    exact hall
  | block pos items ih =>
    intro s em h
    rw [lowerStmt, Emitter.visit_apply] at h
    rw [Stmt.definitions]
    obtain ⟨-, a, ha, rfl⟩ | ⟨-, ha⟩ := inScope_ok h
    · have hitems := lowerItems_labels_of ih ha
      exact hitems
    · exact lowerItems_labels_of ih ha
  | expr pos e =>
    intro s em h
    rw [lowerStmt, Emitter.visit_apply] at h
    obtain ⟨a, ha, rfl⟩ := evaluateOnly_ok h
    exact lowerExpr_labels e ha
  | ifThen pos cond yes ih =>
    intro s em h
    obtain ⟨c, y, hc, hy, rfl⟩ := lowerStmt_ifThen_ok h
    have hdone : Defines y.state.scratch.labels y.state.scratch.labels
        [flowLabel (s.scratch.labels + 1)] [.label (flowLabel (s.scratch.labels + 1))] :=
      .named _ rfl rfl
    have hparts := (branch_labels hc).append ((ih hy).append hdone)
    exact Defines.absorb (n := 2) hparts
      (List.perm_append_comm.append_left [flowLabel s.scratch.labels])
  | ifElse pos cond yes no ihy ihn =>
    intro s em h
    obtain ⟨c, y, z, hc, hy, hz, rfl⟩ := lowerStmt_ifElse_ok h
    have hotherwise : Defines y.state.scratch.labels y.state.scratch.labels
        [flowLabel (s.scratch.labels + 1)] [.instruction (.jmp (flowLabel (s.scratch.labels + 2))),
          .label (flowLabel (s.scratch.labels + 1))] := .named _ rfl rfl
    have hdone : Defines z.state.scratch.labels z.state.scratch.labels
        [flowLabel (s.scratch.labels + 2)] [.label (flowLabel (s.scratch.labels + 2))] :=
      .named _ rfl rfl
    have hparts := (branch_labels hc).append ((ihy hy).append (hotherwise.append
      ((ihn hz).append hdone)))
    have hlast : (yes.definitions ++ (no.definitions ++ [flowLabel (s.scratch.labels + 2)])).Perm
        (flowLabel (s.scratch.labels + 2) :: (yes.definitions ++ no.definitions)) := by
      rw [← List.append_assoc]
      exact List.perm_append_comm
    exact Defines.absorb (n := 3) hparts
      ((List.perm_middle.trans (hlast.cons _)).append_left [flowLabel s.scratch.labels])
  | whileLoop pos cond body ih =>
    intro s em h
    rw [lowerStmt, Emitter.visit_apply] at h
    rw [Stmt.definitions]
    exact lowerLoop_labels ih h
  | forLoop pos init cond step body ih =>
    intro s em h
    obtain ⟨i, l, hi, hl, rfl⟩ := lowerStmt_forLoop_ok h
    exact (evaluateOption_labels hi).append (lowerLoop_labels ih hl)
  | ret pos value =>
    intro s em h
    rw [lowerStmt, Emitter.visit_apply] at h
    cases value with
    | none =>
      obtain ⟨-, rfl⟩ := lowerReturn_none_ok h
      exact .plain _ rfl
    | some e =>
      obtain ⟨-, a, ha, rfl⟩ := lowerReturn_some_ok h
      exact (lowerExpr_labels e ha).append (.plain _ rfl)

end Lowering

end WordC
