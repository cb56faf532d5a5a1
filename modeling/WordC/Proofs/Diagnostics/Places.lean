import WordC.Proofs.Grammar.Stmt
import WordC.Proofs.Syntax

/-!
# The positions in a syntax tree

`Expr.positions` and `Stmt.positions` are the positions of all nodes of a tree. In the tree that
tokens stand for, each of them is the position of one of the tokens: `IsItems.positions_subset`.
-/

namespace WordC

namespace Expr

mutual

/-- The positions of an expression and of its parts. -/
def positions : Expr → List Position
  | .assign pos target value => pos :: (target.positions ++ value.positions)
  | .logical pos _ operands => pos :: positionsOfAll operands
  | .binary pos _ left right => pos :: (left.positions ++ right.positions)
  | .unary pos _ operand => pos :: operand.positions
  | .call pos callee args => pos :: (callee.positions ++ positionsOfAll args)
  | .name pos _ | .number pos _ | .text pos _ | .character pos _ | .bool pos _ => [pos]

/-- The positions in a list of expressions. -/
def positionsOfAll : List Expr → List Position
  | [] => []
  | e :: es => e.positions ++ positionsOfAll es

end

/-- The positions in an expression that may be missing. -/
def positions? (e : Option Expr) : List Position := (e.map Expr.positions).getD []

theorem pos_mem_positions (e : Expr) : e.pos ∈ e.positions := by
  cases e <;> simp [pos, positions]

end Expr

namespace Stmt

mutual

/-- The positions of a statement and of its parts. -/
def positions : Stmt → List Position
  | .var pos decl => pos :: Expr.positions? decl.init
  | .prototype pos _ => [pos]
  | .function pos _ body => pos :: body.positions
  | .block pos items => pos :: positionsOfAll items
  | .expr pos e => pos :: e.positions
  | .ifThen pos cond yes => pos :: (cond.positions ++ yes.positions)
  | .ifElse pos cond yes no => pos :: (cond.positions ++ (yes.positions ++ no.positions))
  | .whileLoop pos cond body => pos :: (cond.positions ++ body.positions)
  | .forLoop pos init cond step body =>
    pos :: (Expr.positions? init ++
      (Expr.positions? cond ++ (Expr.positions? step ++ body.positions)))
  | .ret pos value => pos :: Expr.positions? value

/-- The positions in a list of statements. -/
def positionsOfAll : List Stmt → List Position
  | [] => []
  | item :: items => item.positions ++ positionsOfAll items

end

theorem positionsOfAll_items_subset (stmt : Stmt) :
    positionsOfAll stmt.items ⊆ stmt.positions := by
  cases stmt <;> simp [items, positions, positionsOfAll]

end Stmt

namespace Grammar

variable {places : List Position} {ts : List Token}

theorem first_mem (hne : ts ≠ []) (hts : ∀ t ∈ ts, t.pos ∈ places) : first ts ∈ places := by
  cases ts with
  | nil => exact absurd rfl hne
  | cons t ts => exact hts t List.mem_cons_self

/-- The position of an expression that others stand behind is that of its first part. -/
theorem IsExpr.lead_mem {level : Level} {e : Expr} (h : IsExpr level ts e)
    (he : e.positions ⊆ places) : lead ts ∈ places := by
  rw [← h.pos_eq.1]
  exact he e.pos_mem_positions

mutual

theorem IsExpr.positions_subset : ∀ {level : Level} {ts : List Token} {e : Expr},
    IsExpr level ts e → (∀ t ∈ ts, t.pos ∈ places) → e.positions ⊆ places
  | _, _, _, .tighter _ h, hts => h.positions_subset hts
  | _, _, _, .assign htarget _ hvalue, hts => by
    simp only [List.forall_mem_append, List.forall_mem_cons] at hts
    have hleft := htarget.positions_subset hts.1
    rw [Expr.positions, List.cons_subset, List.append_subset]
    exact ⟨htarget.lead_mem hleft, hleft, hvalue.positions_subset hts.2.2⟩
  | _, _, _, .logical _ _ he _ hes, hts => by
    simp only [List.forall_mem_append, List.forall_mem_cons] at hts
    have hfirst := he.positions_subset hts.1
    rw [Expr.positions, Expr.positionsOfAll, List.cons_subset, List.append_subset]
    exact ⟨he.lead_mem hfirst, hfirst, hes.positions_subset hts.2.2⟩
  | _, _, _, .binary _ _ hleft _ hright, hts => by
    simp only [List.forall_mem_append, List.forall_mem_cons] at hts
    have hfirst := hleft.positions_subset hts.1
    rw [Expr.positions, List.cons_subset, List.append_subset]
    exact ⟨hleft.lead_mem hfirst, hfirst, hright.positions_subset hts.2.2⟩
  | _, _, _, .unary _ _ h, hts => by
    rw [List.forall_mem_cons] at hts
    rw [Expr.positions, List.cons_subset]
    exact ⟨hts.1, h.positions_subset hts.2⟩
  | _, _, _, .callEmpty h _ _, hts => by
    rw [List.forall_mem_append] at hts
    have hcallee := h.positions_subset hts.1
    rw [Expr.positions, Expr.positionsOfAll, List.append_nil, List.cons_subset]
    exact ⟨h.lead_mem hcallee, hcallee⟩
  | _, _, _, .call h _ hargs _, hts => by
    simp only [List.forall_mem_append, List.forall_mem_cons] at hts
    have hcallee := h.positions_subset hts.1
    rw [Expr.positions, List.cons_subset, List.append_subset]
    exact ⟨h.lead_mem hcallee, hcallee, hargs.positions_subset hts.2.2.1⟩
  | _, _, _, .parens _ h _, hts => by
    simp only [List.forall_mem_append, List.forall_mem_cons] at hts
    exact h.positions_subset hts.2.1
  | _, _, _, .atom h, hts => by
    cases h with
    | name | number | text | character | yes | no => simpa [Expr.positions] using hts

theorem IsChain.positions_subset : ∀ {m : Mark} {level : Level} {ts : List Token} {es : List Expr},
    IsChain m level ts es → (∀ t ∈ ts, t.pos ∈ places) → Expr.positionsOfAll es ⊆ places
  | _, _, _, _, .one h, hts => by
    rw [Expr.positionsOfAll, Expr.positionsOfAll, List.append_nil]
    exact h.positions_subset hts
  | _, _, _, _, .more h _ hes, hts => by
    simp only [List.forall_mem_append, List.forall_mem_cons] at hts
    rw [Expr.positionsOfAll, List.append_subset]
    exact ⟨h.positions_subset hts.1, hes.positions_subset hts.2.2⟩

end

theorem IsOptional.positions_subset {e : Option Expr} (h : IsOptional ts e)
    (hts : ∀ t ∈ ts, t.pos ∈ places) : Expr.positions? e ⊆ places := by
  cases h with
  | none => exact List.nil_subset _
  | some h => exact h.positions_subset hts

theorem IsCondition.positions_subset {e : Expr} (h : IsCondition ts e)
    (hts : ∀ t ∈ ts, t.pos ∈ places) : e.positions ⊆ places := by
  cases h with
  | mk _ h _ =>
    simp only [List.forall_mem_append, List.forall_mem_cons] at hts
    exact h.positions_subset hts.2.1

theorem IsVariable.positions_subset {decl : Variable} (h : IsVariable ts decl)
    (hts : ∀ t ∈ ts, t.pos ∈ places) : Expr.positions? decl.init ⊆ places := by
  cases h with
  | array | bare => exact List.nil_subset _
  | initialized _ _ _ hinit _ =>
    simp only [List.forall_mem_append, List.forall_mem_cons] at hts
    exact hinit.positions_subset hts.2.2.1

mutual

theorem IsStmt.positions_subset : ∀ {ts : List Token} {stmt : Stmt}, IsStmt ts stmt →
    (∀ t ∈ ts, t.pos ∈ places) → stmt.positions ⊆ places
  | _, _, .block _ h _, hts => by
    simp only [List.forall_mem_append, List.forall_mem_cons] at hts
    rw [Stmt.positions, List.cons_subset]
    exact ⟨hts.1, h.positions_subset hts.2.1⟩
  | _, _, .ifThen _ hcond hyes, hts => by
    simp only [List.forall_mem_append, List.forall_mem_cons] at hts
    rw [Stmt.positions, List.cons_subset, List.append_subset]
    exact ⟨hts.1, hcond.positions_subset hts.2.1, hyes.positions_subset hts.2.2⟩
  | _, _, .ifElse _ hcond hyes _ _ hno, hts => by
    simp only [List.forall_mem_append, List.forall_mem_cons] at hts
    rw [Stmt.positions, List.cons_subset, List.append_subset, List.append_subset]
    exact ⟨hts.1, hcond.positions_subset hts.2.1, hyes.positions_subset hts.2.2.1,
      hno.positions_subset hts.2.2.2.2⟩
  | _, _, .whileLoop _ hcond hbody, hts => by
    simp only [List.forall_mem_append, List.forall_mem_cons] at hts
    rw [Stmt.positions, List.cons_subset, List.append_subset]
    exact ⟨hts.1, hcond.positions_subset hts.2.1, hbody.positions_subset hts.2.2⟩
  | _, _, .forLoop _ _ hinit _ hcond _ hstep _ hbody, hts => by
    simp only [List.forall_mem_append, List.forall_mem_cons] at hts
    obtain ⟨ht, -, htinit, -, htcond, -, htstep, -, htbody⟩ := hts
    rw [Stmt.positions, List.cons_subset, List.append_subset, List.append_subset,
      List.append_subset]
    exact ⟨ht, hinit.positions_subset htinit, hcond.positions_subset htcond,
      hstep.positions_subset htstep, hbody.positions_subset htbody⟩
  | _, _, .ret _ hvalue _, hts => by
    simp only [List.forall_mem_append, List.forall_mem_cons] at hts
    rw [Stmt.positions, List.cons_subset]
    exact ⟨hts.1, hvalue.positions_subset hts.2.1⟩
  | _, _, .expr h _, hts => by
    rw [List.forall_mem_append] at hts
    obtain ⟨t, us, rfl, -⟩ := h.begins
    rw [Stmt.positions, List.cons_subset]
    exact ⟨first_mem (List.cons_ne_nil t us) hts.1, h.positions_subset hts.1⟩

theorem IsItem.positions_subset : ∀ {ts : List Token} {item : Stmt}, IsItem ts item →
    (∀ t ∈ ts, t.pos ∈ places) → item.positions ⊆ places
  | _, _, .stmt h, hts => h.positions_subset hts
  | _, _, .var h, hts => by
    obtain ⟨t, us, rfl, -⟩ := (IsItem.var h).begins
    rw [Stmt.positions, List.cons_subset]
    exact ⟨first_mem (List.cons_ne_nil t us) hts, h.positions_subset hts⟩
  | _, _, .prototype hhead _ _, hts => by
    rw [List.forall_mem_append] at hts
    obtain ⟨t, us, rfl, -⟩ := hhead.begins
    rw [Stmt.positions, List.cons_subset]
    exact ⟨first_mem (List.cons_ne_nil t us) hts.1, List.nil_subset _⟩
  | _, _, .function hhead _ hbody, hts => by
    simp only [List.forall_mem_append] at hts
    obtain ⟨t, us, rfl, -⟩ := hhead.begins
    rw [Stmt.positions, List.cons_subset]
    exact ⟨first_mem (List.cons_ne_nil t us) hts.1, hbody.positions_subset hts.2.2⟩

theorem IsItems.positions_subset : ∀ {ts : List Token} {items : List Stmt}, IsItems ts items →
    (∀ t ∈ ts, t.pos ∈ places) → Stmt.positionsOfAll items ⊆ places
  | _, _, .nil, _ => List.nil_subset _
  | _, _, .cons h hs, hts => by
    rw [List.forall_mem_append] at hts
    rw [Stmt.positionsOfAll, List.append_subset]
    exact ⟨h.positions_subset hts.1, hs.positions_subset hts.2⟩

end

end Grammar

end WordC
