import WordC.Proofs.Depth.Expr
import WordC.Proofs.Labels.Owners

/-!
# The depth of the stack in statements

The lines of a statement are entered and left at depth 0, and at depth 0 stand the labels of its ifs
and loops: `lowerStmt_settles`, `lowerItems_settles`.
-/

namespace WordC

open Lowering

/-! ### Stretches at depth 0 -/

/-- The lines lead from depth 0 to depth 0, and the exits are at depth 0, too. They were handed out
the flow labels of the owners, from number `n` up to `n'`. Those of ifs and loops stand at depth 0,
and so do the labels `own`, which were handed out in front of the lines. -/
structure Settles (exits own : List String) (n : Nat) (owners : List LabelOwner)
    (lines : List Line) (n' : Nat) : Prop where
  labels : n' = n + owners.length
  leads : Leads (exits.map (·, 0)) 0 lines 0
  owned : ∀ x ∈ own ++ statementLabels n owners, (x, 0) ∈ depthsOf Line.label? 0 lines

namespace Settles

variable {exits own own' : List String} {n n' n'' : Nat} {owners owners' : List LabelOwner}
  {lines lines' : List Line} {x : String}

theorem nil : Settles exits [] n [] [] n := ⟨rfl, .nil, nofun⟩

theorem expr {table : SymbolTable} {e : Expr} {s : Scratch} {a : Emission Scratch Register}
    (h : lowerExpr table e s = .ok a) :
    Settles exits [] s.labels e.labelOwners a.lines a.state.labels := by
  refine ⟨?_, (lowerExpr_leads e h).weaken, ?_⟩
  · rw [Expr.length_labelOwners]
    exact lowerExpr_labelCount e h
  · rw [statementLabels_labelOwners]
    nofun

theorem label (x : String) : Settles exits [x] n [] [.label x] n := by
  refine ⟨rfl, .label x, fun y hy => ?_⟩
  rw [List.mem_singleton.1 hy]
  exact List.mem_singleton_self _

theorem weaken (h : Settles [] own n owners lines n') : Settles exits own n owners lines n' :=
  ⟨h.labels, Leads.weaken h.leads, h.owned⟩

theorem append (h : Settles exits own n owners lines n')
    (h' : Settles exits own' n' owners' lines' n'') :
    Settles exits (own ++ own') n (owners ++ owners') (lines ++ lines') n'' := by
  refine ⟨?_, h.leads.append h'.leads, fun x hx => ?_⟩
  · rw [h'.labels, h.labels, List.length_append, Nat.add_assoc]
  · rw [depthsOf_append, h.leads.ends, List.mem_append]
    rw [statementLabels_append, ← h.labels] at hx
    have hmem : x ∈ own ++ statementLabels n owners ∨ x ∈ own' ++ statementLabels n' owners' := by
      simp only [List.mem_append] at hx ⊢
      tauto
    exact hmem.imp (h.owned x) (h'.owned x)

/-- Behind the lines stand some that own no labels. -/
theorem followed (h : Settles exits own n owners lines n')
    (h' : Leads (exits.map (·, 0)) 0 lines' 0) :
    Settles exits own n owners (lines ++ lines') n' := by
  refine ⟨h.labels, h.leads.append h', fun x hx => ?_⟩
  rw [depthsOf_append]
  exact List.mem_append_left _ (h.owned x hx)

/-- In front of the lines stand some that own no labels. -/
theorem preceded (h : Settles exits own n owners lines n')
    (h' : Leads (exits.map (·, 0)) 0 lines' 0) :
    Settles exits own n owners (lines' ++ lines) n' := by
  refine ⟨h.labels, h'.append h.leads, fun x hx => ?_⟩
  rw [depthsOf_append, h'.ends]
  exact List.mem_append_right _ (h.owned x hx)

theorem jumping (h : Settles exits own n owners lines n') (hx : x ∈ exits) :
    Settles exits own n owners (lines ++ [.instruction (.jmp x)]) n' :=
  h.followed (.jmp (List.mem_map.2 ⟨x, hx, rfl⟩))

/-- An exit is where the lines end. -/
theorem label_behind (h : Settles (x :: exits) own n owners lines n') :
    Settles exits (own ++ [x]) n owners (lines ++ [.label x]) n' := by
  have hall := h.append (label x)
  rw [List.append_nil] at hall
  exact ⟨hall.labels, Leads.label_behind h.leads, hall.owned⟩

/-- An exit is where the lines begin. -/
theorem label_front (h : Settles (x :: exits) own n owners lines n') :
    Settles exits (x :: own) n owners (.label x :: lines) n' :=
  ⟨h.labels, Leads.label_front h.leads, ((label x).append h).owned⟩

/-- Labels that were handed out in front of the lines are labels of the statement. -/
theorem absorb {count : Nat} (h : Settles exits own (n + count) owners lines n')
    (hown : (List.range' n count).map flowLabel ⊆ own) :
    Settles exits [] n (.replicate count .statement ++ owners) lines n' := by
  refine ⟨?_, h.leads, fun x hx => h.owned x ?_⟩
  · rw [h.labels, List.length_append, List.length_replicate, Nat.add_assoc]
  · rw [List.nil_append, statementLabels_append, statementLabels_replicate,
      List.length_replicate] at hx
    exact (List.mem_append.1 hx).elim (fun hx => List.mem_append_left _ (hown hx))
      (List.mem_append_right _)

end Settles

namespace Lowering

variable {s : Session} {em : Emission Session Unit} {exits : List String}

/-- The statement settles, from a session to the one behind it. -/
def SettlesFrom (s : Session) (owners : List LabelOwner) (em : Emission Session Unit) : Prop :=
  Settles [] [] s.scratch.labels owners em.lines em.state.scratch.labels

/-! ### Parts of statements -/

theorem evaluateOption_settles {e : Option Expr} (h : evaluateOption e s = .ok em) :
    SettlesFrom s (optionOwners e) em := by
  cases e with
  | none =>
    rw [evaluateOption_none_ok h]
    exact .nil
  | some e =>
    obtain ⟨a, ha, rfl⟩ := evaluateOnly_ok h
    exact .expr ha

/-- A branch leaves for the exit or goes on at its label. -/
theorem branch_settles {cond : Expr} {ok otherwise : String}
    (h : branch cond ok otherwise s = .ok em) (hexit : otherwise ∈ exits) :
    Settles exits [ok] s.scratch.labels cond.labelOwners em.lines em.state.scratch.labels := by
  obtain ⟨a, ha, rfl⟩ := branch_ok h
  have hjump : Leads ((ok :: exits).map (·, 0)) 0 [.instruction (.jnz a.value ok)] 0 :=
    .jnz List.mem_cons_self
  have hall := (((Settles.expr ha).followed hjump).jumping
    (List.mem_cons_of_mem _ hexit)).label_behind
  simpa using hall

theorem loopTest_settles {cond : Option Expr} {done : String} (h : loopTest done cond s = .ok em)
    (hexit : done ∈ exits) :
    Settles exits [] s.scratch.labels (testOwners cond) em.lines em.state.scratch.labels := by
  cases cond with
  | none =>
    rw [Emitter.pure_eq_ok_iff.1 h]
    exact .nil
  | some cond =>
    exact (branch_settles (loopTest_some_ok h) hexit).absorb (List.Subset.refl _)

theorem lowerLoop_settles {cond step : Option Expr} {body : Stmt}
    (hbody : ∀ {s : Session} {em : Emission Session Unit}, lowerStmt body s = .ok em →
      SettlesFrom s body.labelOwners em)
    (h : lowerLoop cond step (lowerStmt body) s = .ok em) :
    SettlesFrom s (.statement :: .statement ::
      (testOwners cond ++ (body.labelOwners ++ optionOwners step))) em := by
  obtain ⟨t, b, u, ht, hb, hu, rfl⟩ := lowerLoop_ok h
  -- inside, the loop is left for its end, and begun again at its top
  have hinner : Settles [flowLabel (s.scratch.labels + 1), flowLabel s.scratch.labels] []
      (s.scratch.labels + 2) (testOwners cond ++ (body.labelOwners ++ optionOwners step))
      (t.lines ++ (b.lines ++ u.lines)) u.state.scratch.labels :=
    (loopTest_settles ht List.mem_cons_self).append
      ((hbody hb).weaken.append (evaluateOption_settles hu).weaken)
  have hall := (hinner.jumping (List.mem_cons_of_mem _ List.mem_cons_self)).label_behind.label_front
  simpa [SettlesFrom] using hall.absorb (List.Subset.refl _)

theorem lowerItems_settles_of {items : List Stmt}
    (hitems : ∀ item ∈ items, ∀ {s : Session} {em : Emission Session Unit},
      lowerStmt item s = .ok em → SettlesFrom s item.labelOwners em) :
    ∀ {s : Session} {em : Emission Session Unit}, lowerItems items s = .ok em →
      SettlesFrom s (Stmt.labelOwnersOfAll items) em := by
  induction items with
  | nil =>
    intro s em h
    rw [lowerItems_nil_ok h, Stmt.labelOwnersOfAll]
    exact .nil
  | cons item items ih =>
    intro s em h
    obtain ⟨a, b, ha, hb, rfl⟩ := lowerItems_cons_ok h
    rw [List.forall_mem_cons] at hitems
    rw [Stmt.labelOwnersOfAll]
    exact (hitems.1 ha).append (ih hitems.2 hb)

/-- A statement leads from depth 0 to depth 0, and its labels are at depth 0. -/
theorem lowerStmt_settles (stmt : Stmt) : ∀ {s : Session} {em : Emission Session Unit},
    lowerStmt stmt s = .ok em → SettlesFrom s stmt.labelOwners em := by
  induction stmt using Stmt.induct with
  | var pos decl =>
    intro s em h
    rw [lowerStmt, Emitter.visit_apply] at h
    rw [Stmt.labelOwners]
    cases hinit : decl.init with
    | none =>
      obtain ⟨p, table, -, -, rfl⟩ := lowerVariable_none_ok hinit h
      exact .nil
    | some init =>
      obtain ⟨a, p, table, address, ha, -, -, -, rfl⟩ := lowerVariable_some_ok hinit h
      exact (Settles.expr ha).followed leads_store
  | prototype pos head =>
    intro s em h
    rw [lowerStmt, Emitter.visit_apply] at h
    obtain ⟨-, table, -, rfl⟩ := declareFunction_ok h
    exact .nil
  | function pos head body ih =>
    intro s em h
    rw [lowerStmt_function_apply] at h
    obtain ⟨-, table, p, b, reserve, -, hp, hb, hreserve, rfl⟩ := lowerFunction_ok h
    obtain ⟨-, hscratch, -⟩ := declareParams_ok hp
    have hbody : Settles [] [] s.scratch.labels body.labelOwners b.lines
        b.state.scratch.labels := by
      have hitems := lowerItems_settles_of ih hb
      rwa [SettlesFrom, hscratch, Stmt.labelOwnersOfAll_items] at hitems
    have hframe := (hbody.followed (.frameCode .exit)).preceded (.frameCode (.of_reserve hreserve))
    exact hframe.preceded (.label head.name)
  | block pos items ih =>
    intro s em h
    rw [lowerStmt, Emitter.visit_apply] at h
    rw [Stmt.labelOwners]
    obtain ⟨-, a, ha, rfl⟩ | ⟨-, ha⟩ := inScope_ok h
    · have hitems := lowerItems_settles_of ih ha
      exact hitems
    · exact lowerItems_settles_of ih ha
  | expr pos e =>
    intro s em h
    rw [lowerStmt, Emitter.visit_apply] at h
    obtain ⟨a, ha, rfl⟩ := evaluateOnly_ok h
    exact .expr ha
  | ifThen pos cond yes ih =>
    intro s em h
    obtain ⟨c, y, hc, hy, rfl⟩ := lowerStmt_ifThen_ok h
    have hparts := (branch_settles hc (List.mem_singleton_self _)).append (ih hy).weaken
    simpa [SettlesFrom, Stmt.labelOwners] using hparts.label_behind.absorb (List.Subset.refl _)
  | ifElse pos cond yes no ihy ihn =>
    intro s em h
    obtain ⟨c, y, z, hc, hy, hz, rfl⟩ := lowerStmt_ifElse_ok h
    have hexit : flowLabel (s.scratch.labels + 1) ∈
        [flowLabel (s.scratch.labels + 1), flowLabel (s.scratch.labels + 2)] := List.mem_cons_self
    have hyes := (branch_settles hc hexit).append (ihy hy).weaken
    have hleft := hyes.jumping (List.mem_cons_of_mem _ List.mem_cons_self)
    have hparts := hleft.label_behind.append (ihn hz).weaken
    simpa [SettlesFrom, Stmt.labelOwners] using hparts.label_behind.absorb (List.Subset.refl _)
  | whileLoop pos cond body ih =>
    intro s em h
    rw [lowerStmt, Emitter.visit_apply] at h
    have hloop := lowerLoop_settles ih h
    rwa [optionOwners, List.append_nil] at hloop
  | forLoop pos init cond step body ih =>
    intro s em h
    obtain ⟨i, l, hi, hl, rfl⟩ := lowerStmt_forLoop_ok h
    exact (evaluateOption_settles hi).append (lowerLoop_settles ih hl)
  | ret pos value =>
    intro s em h
    rw [lowerStmt, Emitter.visit_apply] at h
    cases value with
    | none =>
      obtain ⟨-, rfl⟩ := lowerReturn_none_ok h
      exact Settles.nil.followed (.frameCode .exit)
    | some e =>
      obtain ⟨-, a, ha, rfl⟩ := lowerReturn_some_ok h
      have hresult : Leads [] 0 [.instruction (.mov Register.rv a.value)] 0 :=
        @Leads.steady _ _ [_] rfl
      exact (Settles.expr ha).followed (hresult.append (.frameCode .exit))

theorem lowerItems_settles {items : List Stmt} (h : lowerItems items s = .ok em) :
    SettlesFrom s (Stmt.labelOwnersOfAll items) em :=
  lowerItems_settles_of (fun item _ => lowerStmt_settles item) h

end Lowering

end WordC
