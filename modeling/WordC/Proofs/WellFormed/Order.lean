import WordC.Proofs.Grammar.Rules
import WordC.Proofs.WellFormed.Rules

/-!
# The step of a loop

The step of a `for` stands in front of the body and runs behind it. In a program of the grammar the
body is no declaration, so inside of functions it leaves the names as they were. Outside, where
blocks open no scope, it may declare some. So what is well formed as written is well formed as run
(`Stmt.IsWellFormed.asRun`), and not the other way around.
-/

namespace WordC

/-! ### Environments with more names -/

namespace Env

variable {env env' env'' : Env} {x : String} {entity : Entity}

/-- The second environment knows the names of the first, and what can be assigned to in the first
can be in the second. -/
structure IsWithin (env env' : Env) : Prop where
  knows : ∀ x, env.Knows x → env'.Knows x
  assigns : ∀ x, env.lookup x = some (.scalar false) → env'.lookup x = some (.scalar false)

namespace IsWithin

theorem refl (env : Env) : env.IsWithin env := ⟨fun _ h => h, fun _ h => h⟩

theorem trans (h : env.IsWithin env') (h' : env'.IsWithin env'') : env.IsWithin env'' :=
  ⟨fun x hx => h'.knows x (h.knows x hx), fun x hx => h'.assigns x (h.assigns x hx)⟩

end IsWithin

/-- Outside of functions a declaration hides nothing. -/
theorem Declares.isWithin (h : env.Declares x entity env') (hfile : env.scopes = []) :
    env.IsWithin env' := by
  cases h with
  | scope h => cases hfile
  | @file file _ _ joined hname h =>
    have hlookup (y : String) : Env.lookup ⟨Function.update file x (some joined), []⟩ y =
        if y = x then some joined else file y := by
      simp [Env.lookup, Function.update_apply]
    constructor
    · rintro y ⟨known, hy⟩
      by_cases hyx : y = x
      · exact ⟨joined, by rw [hlookup, if_pos hyx]⟩
      · exact ⟨known, by rw [hlookup, if_neg hyx]; exact hy⟩
    · intro y hy
      have hyx : y ≠ x := by
        rintro rfl
        -- only functions are declared again
        have hscalar : file y = some (.scalar false) := hy
        rw [hscalar] at h
        cases h
      rw [hlookup, if_neg hyx]
      exact hy

/-- The environments differ in the innermost scope at most. -/
structure SameOutside (env env' : Env) : Prop where
  file : env'.file = env.file
  outer : env'.scopes.tail = env.scopes.tail

namespace SameOutside

theorem refl (env : Env) : env.SameOutside env := ⟨rfl, rfl⟩

theorem trans (h : env.SameOutside env') (h' : env'.SameOutside env'') : env.SameOutside env'' :=
  ⟨h'.file.trans h.file, h'.outer.trans h.outer⟩

theorem closeScope (h : env.openScope.SameOutside env') : env'.closeScope = env := by
  rw [Env.closeScope, h.file, h.outer]
  rfl

end SameOutside

theorem Declares.sameOutside (h : env.Declares x entity env') (hin : env.scopes ≠ []) :
    env.SameOutside env' := by
  cases h with
  | file => exact absurd rfl hin
  | scope => exact ⟨rfl, rfl⟩

theorem DeclaresParams.sameOutside {params : List Param} (h : env.DeclaresParams params env') :
    env.scopes ≠ [] → env.SameOutside env' ∧ env'.scopes ≠ [] := by
  induction h with
  | nil env => exact fun hin => ⟨.refl env, hin⟩
  | cons h hs ih =>
    intro hin
    obtain ⟨hrest, hinside⟩ := ih (scopes_ne_nil h.length_scopes hin)
    exact ⟨(h.sameOutside hin).trans hrest, hinside⟩

end Env

/-! ### Expressions -/

namespace Expr

variable {env env' : Env}

theorem IsAssignable.mono (hwithin : env.IsWithin env') {e : Expr} (h : e.IsAssignable env) :
    e.IsAssignable env' := by
  unfold IsAssignable at *
  split at h
  · exact hwithin.assigns _ h
  · exact hwithin.knows _ h
  · exact h.elim

mutual

/-- An expression stays well formed where more names are known. -/
theorem IsWellFormed.mono (hwithin : env.IsWithin env') :
    ∀ {e : Expr}, e.IsWellFormed env → e.IsWellFormed env'
  | .name .., h => by
    rw [IsWellFormed] at *
    exact hwithin.knows _ h
  | .assign .., h => by
    rw [IsWellFormed] at *
    exact ⟨h.1.mono hwithin, h.2.mono hwithin⟩
  | .logical .., h => by
    rw [IsWellFormed] at *
    exact AreWellFormed.mono hwithin h
  | .binary .., h => by
    rw [IsWellFormed] at *
    exact ⟨h.1.mono hwithin, h.2.mono hwithin⟩
  | .unary .., h => by
    rw [IsWellFormed] at *
    exact h.mono hwithin
  | .call .., h => by
    rw [IsWellFormed] at *
    exact ⟨h.1.mono hwithin, AreWellFormed.mono hwithin h.2⟩
  | .number .., _ | .text .., _ | .character .., _ | .bool .., _ => by
    rw [IsWellFormed]
    trivial

theorem AreWellFormed.mono (hwithin : env.IsWithin env') :
    ∀ {es : List Expr}, AreWellFormed env es → AreWellFormed env' es
  | [], h => h
  | _ :: _, h => by
    rw [AreWellFormed] at *
    exact ⟨h.1.mono hwithin, AreWellFormed.mono hwithin h.2⟩

end

end Expr

/-! ### What statements leave -/

namespace Stmt

variable {order : Order}

mutual

/-- Inside of functions a statement leaves all but the innermost scope as they were. -/
theorem IsWellFormed.sameOutside {stmt : Stmt} : ∀ {env env' : Env},
    stmt.IsWellFormed order env env' → env.scopes ≠ [] → env.SameOutside env'
  | _, _, .var _ h, hin => h.sameOutside hin
  | _, _, .prototype hfile _, hin | _, _, .function hfile .., hin
  | _, _, .fileBlock hfile _, hin => absurd hfile hin
  | _, _, .block _ h, _ => by
    rw [(h.sameOutside (List.cons_ne_nil _ _)).closeScope]
    exact .refl _
  | _, _, .expr _, _ | _, _, .ret .., _ => .refl _
  | _, _, .ifThen _ hyes, hin => hyes.sameOutside hin
  | _, _, .ifElse _ hyes hno, hin =>
    (hyes.sameOutside hin).trans (hno.sameOutside (Env.scopes_ne_nil hyes.length_scopes hin))
  | _, _, .whileLoop _ hbody, hin | _, _, .forLoop _ _ hbody _, hin => hbody.sameOutside hin

theorem AreWellFormed.sameOutside {items : List Stmt} : ∀ {env env' : Env},
    AreWellFormed order env items env' → env.scopes ≠ [] → env.SameOutside env'
  | _, _, .nil _, _ => .refl _
  | _, _, .cons h hs, hin =>
    (h.sameOutside hin).trans (hs.sameOutside (Env.scopes_ne_nil h.length_scopes hin))

end

/-- A function leaves its own name. -/
theorem closeAll_eq_of_inside {env env' env'' : Env} {params : List Param} {items : List Stmt}
    (hfile : env.scopes = []) (hparams : env.openScope.DeclaresParams params env')
    (hbody : AreWellFormed order env' items env'') : env''.closeAll = env := by
  obtain ⟨hfirst, hinside⟩ := hparams.sameOutside (List.cons_ne_nil _ _)
  have hsame := hfirst.trans (hbody.sameOutside hinside)
  rw [Env.closeAll, hsame.file, ← hfile]
  rfl

mutual

/-- Outside of functions a statement takes no names away. -/
theorem IsWellFormed.isWithin {stmt : Stmt} : ∀ {env env' : Env},
    stmt.IsWellFormed order env env' → env.scopes = [] → env.IsWithin env'
  | _, _, .var _ h, hfile | _, _, .prototype _ h, hfile => h.isWithin hfile
  | _, _, .function _ h hparams hbody _ _, hfile => by
    have hfile' := List.length_eq_zero_iff.1 (h.length_scopes.trans (by simp [hfile]))
    rw [closeAll_eq_of_inside hfile' hparams hbody]
    exact h.isWithin hfile
  | _, _, .block hin _, hfile => absurd hfile hin
  | _, _, .fileBlock _ h, hfile => h.isWithin hfile
  | _, _, .expr _, _ | _, _, .ret .., _ => .refl _
  | _, _, .ifThen _ hyes, hfile => hyes.isWithin hfile
  | _, _, .ifElse _ hyes hno, hfile => by
    have hfile' := List.length_eq_zero_iff.1 (hyes.length_scopes.trans (by simp [hfile]))
    exact (hyes.isWithin hfile).trans (hno.isWithin hfile')
  | _, _, .whileLoop _ hbody, hfile | _, _, .forLoop _ _ hbody _, hfile => hbody.isWithin hfile

theorem AreWellFormed.isWithin {items : List Stmt} : ∀ {env env' : Env},
    AreWellFormed order env items env' → env.scopes = [] → env.IsWithin env'
  | _, _, .nil _, _ => .refl _
  | _, _, .cons h hs, hfile => by
    have hfile' := List.length_eq_zero_iff.1 (h.length_scopes.trans (by simp [hfile]))
    exact (h.isWithin hfile).trans (hs.isWithin hfile')

end

end Stmt

/-! ### Statements of the grammar -/

namespace Grammar
open Stmt

variable {order : Order}

/-- Inside of functions a statement that is no declaration leaves the names as they were. -/
theorem IsStmt.env_eq : ∀ {ts : List Token} {stmt : Stmt}, IsStmt ts stmt → ∀ {env env' : Env},
    stmt.IsWellFormed order env env' → env.scopes ≠ [] → env' = env
  | _, _, .block .., _, _, .block _ h, _ => (h.sameOutside (List.cons_ne_nil _ _)).closeScope
  | _, _, .block .., _, _, .fileBlock hfile _, hin => absurd hfile hin
  | _, _, .ifThen _ _ hs, _, _, .ifThen _ hyes, hin => hs.env_eq hyes hin
  | _, _, .ifElse _ _ hs _ _ hs', _, _, .ifElse _ hyes hno, hin => by
    obtain rfl := hs.env_eq hyes hin
    exact hs'.env_eq hno hin
  | _, _, .whileLoop _ _ hs, _, _, .whileLoop _ hbody, hin => hs.env_eq hbody hin
  | _, _, .forLoop _ _ _ _ _ _ _ _ hs, _, _, .forLoop _ _ hbody _, hin => hs.env_eq hbody hin
  | _, _, .ret .., _, _, .ret .., _ => rfl
  | _, _, .expr .., _, _, .expr _, _ => rfl

theorem IsStmt.isWithin {ts : List Token} {stmt : Stmt} (hs : IsStmt ts stmt) {env env' : Env}
    (h : stmt.IsWellFormed order env env') : env.IsWithin env' := by
  by_cases hfile : env.scopes = []
  · exact h.isWithin hfile
  · rw [hs.env_eq h hfile]
    exact .refl env

theorem IsItems.exists_isItem {ts : List Token} {items : List Stmt} (h : IsItems ts items) :
    ∀ item ∈ items, ∃ us, IsItem us item := by
  induction items generalizing ts with
  | nil => simp
  | cons item items ih =>
    cases h with
    | cons h hs =>
      rw [List.forall_mem_cons]
      exact ⟨⟨_, h⟩, ih hs⟩

theorem IsStmt.exists_isItem {ts : List Token} {stmt : Stmt} (h : IsStmt ts stmt) :
    ∀ item ∈ stmt.items, ∃ us, IsItem us item := by
  cases stmt with
  | block pos items =>
    cases h with
    | block _ hs _ => exact hs.exists_isItem
  | _ => simpa [Stmt.items] using ⟨ts, IsItem.stmt h⟩

end Grammar

namespace Stmt
open Grammar

mutual

/-- In a program of the grammar, what is well formed as written is well formed as run. -/
theorem IsWellFormed.asRun {stmt : Stmt} : ∀ {env env' : Env} {ts : List Token},
    stmt.IsWellFormed .asWritten env env' → IsItem ts stmt → stmt.IsWellFormed .asRun env env'
  | _, _, _, .var hinit h, _ => .var hinit h
  | _, _, _, .prototype hfile h, _ => .prototype hfile h
  | _, _, _, .function hfile h hparams hbody hcount hwords, hitem => by
    obtain ⟨⟨⟩⟩ | - | - | ⟨-, -, hs⟩ := hitem
    exact .function hfile h hparams (hbody.asRun hs.exists_isItem) hcount hwords
  | _, _, _, .block hin h, .stmt hs => .block hin (h.asRun hs.exists_isItem)
  | _, _, _, .fileBlock hfile h, .stmt hs => .fileBlock hfile (h.asRun hs.exists_isItem)
  | _, _, _, .expr h, _ => .expr h
  | _, _, _, .ifThen hcond hyes, .stmt hs => by
    cases hs with
    | ifThen _ _ hs => exact .ifThen hcond (hyes.asRun (.stmt hs))
  | _, _, _, .ifElse hcond hyes hno, .stmt hs => by
    cases hs with
    | ifElse _ _ hs _ _ hs' => exact .ifElse hcond (hyes.asRun (.stmt hs)) (hno.asRun (.stmt hs'))
  | _, _, _, .whileLoop hcond hbody, .stmt hs => by
    cases hs with
    | whileLoop _ _ hs => exact .whileLoop hcond (hbody.asRun (.stmt hs))
  | _, _, _, .forLoop hinit hcond hbody hstep, .stmt hs => by
    cases hs with
    | forLoop _ _ _ _ _ _ _ _ hs =>
      have hmore := hs.isWithin hbody
      exact .forLoop hinit hcond (hbody.asRun (.stmt hs)) fun e he => (hstep e he).mono hmore
  | _, _, _, .ret hin hvalue, _ => .ret hin hvalue

theorem AreWellFormed.asRun {items : List Stmt} : ∀ {env env' : Env},
    AreWellFormed .asWritten env items env' → (∀ item ∈ items, ∃ ts, IsItem ts item) →
    AreWellFormed .asRun env items env'
  | _, _, .nil env, _ => .nil env
  | _, _, .cons h hs, hitems => by
    obtain ⟨⟨ts, hitem⟩, hrest⟩ := List.forall_mem_cons.1 hitems
    exact .cons (h.asRun hitem) (hs.asRun hrest)

end

end Stmt

end WordC
