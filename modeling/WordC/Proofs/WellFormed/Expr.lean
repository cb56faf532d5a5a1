import WordC.Proofs.Lowering.Expr
import WordC.Proofs.WellFormed.Rules

/-!
# Well-formed expressions are lowered

The symbol table says what the environment says, and where it is beside (`SymbolTable.env`). An
expression that is lowered is well formed (`lowerExpr_isWellFormed`), and one that is well formed is
lowered unless the registers run out (`lowerExpr_completes`).

`Emitter.Meets` carries the second direction: an emitter succeeds and what it leaves has a property,
or it runs out of registers. There is a rule for each way to build emitters.
-/

namespace WordC

/-! ### The environment of a symbol table -/

/-- What the symbol of a name declares it as. -/
def Symbol.entity : Symbol → Entity
  | .stack _ ty constant | .static ty constant => ty.entity constant
  | .function arity defined => .function arity defined

/-- The names of a scope and what they are declared as. -/
def Scope.entity? (scope : Scope) (x : String) : Option Entity := (scope.get? x).map Symbol.entity

namespace SymbolTable

/-- What a symbol table says about names. -/
def env (table : SymbolTable) : Env := ⟨table.globals.entity?, table.scopes.map Scope.entity?⟩

variable {table : SymbolTable} {x : String} {symbol : Symbol}

theorem lookup_env (table : SymbolTable) (x : String) :
    table.env.lookup x = (table.lookup x).map Symbol.entity := by
  rw [Env.lookup, lookup, env, List.findSome?_map, Option.map_or, List.map_findSome?]
  rfl

theorem lookup_env_of_some (h : table.lookup x = some symbol) :
    table.env.lookup x = some symbol.entity := by rw [lookup_env, h, Option.map_some]

theorem knows_of_some (h : table.lookup x = some symbol) : table.env.Knows x :=
  ⟨symbol.entity, lookup_env_of_some h⟩

/-- What the environment knows the table has a symbol for. -/
theorem exists_of_lookup_env {entity : Entity} (h : table.env.lookup x = some entity) :
    ∃ symbol, table.lookup x = some symbol ∧ symbol.entity = entity := by
  rwa [lookup_env, Option.map_eq_some_iff] at h

end SymbolTable

/-- A variable that can be stored to is a scalar, constant or not. -/
theorem Symbol.entity_eq_scalar_iff {symbol : Symbol} {constant : Bool} (x : String) :
    symbol.entity = .scalar constant ↔
      symbol.isConstant = constant ∧ ∃ address, Lowering.storeAddress? x symbol = some address := by
  cases symbol with
  | stack offset ty constant | static ty constant =>
    cases hty : ty.isArray <;> simp [entity, Ty.entity, hty, isConstant, Lowering.storeAddress?]
  | function arity defined => simp [entity, Lowering.storeAddress?]

/-! ### Success up to registers -/

namespace Emitter

variable {σ τ α β : Type} {s : σ} {x : Emitter σ α} {Q : α → σ → Prop}

/-- The emitter succeeds, and what it gives and leaves has the property, or registers run out. -/
def Meets (x : Emitter σ α) (s : σ) (Q : α → σ → Prop) : Prop :=
  match x s with
  | .ok em => Q em.value em.state
  | .error d => d.cause = .outOfRegisters

namespace Meets

theorem of_ok {em : Emission σ α} (h : x s = .ok em) (hQ : Q em.value em.state) :
    Meets x s Q := by
  rw [Meets, h]
  exact hQ

theorem pure {a : α} (h : Q a s) : Meets (Pure.pure a) s Q := h

theorem bind {f : α → Emitter σ β} {R : β → σ → Prop} (h : Meets x s Q)
    (hf : ∀ a t, Q a t → Meets (f a) t R) : Meets (x >>= f) s R := by
  unfold Meets at h
  rw [Meets, bind_apply]
  cases hx : x s with
  | error d =>
    rw [hx] at h
    exact h
  | ok first =>
    rw [hx] at h
    have hrest := hf first.value first.state h
    unfold Meets at hrest
    cases hy : f first.value first.state with
    | error d =>
      rw [hy] at hrest
      simpa [hy] using hrest
    | ok second =>
      rw [hy] at hrest
      simpa [hy] using hrest

/-- A first part that succeeds is stepped over. -/
theorem ok_bind {f : α → Emitter σ β} {R : β → σ → Prop} {em : Emission σ α} (h : x s = .ok em)
    (hf : Meets (f em.value) em.state R) : Meets (x >>= f) s R := by
  have hx : Meets x s fun a t => a = em.value ∧ t = em.state := of_ok h ⟨rfl, rfl⟩
  refine hx.bind ?_
  rintro a t ⟨rfl, rfl⟩
  exact hf

theorem mono {R : α → σ → Prop} (h : Meets x s Q) (hQ : ∀ a t, Q a t → R a t) : Meets x s R := by
  unfold Meets at *
  cases hx : x s with
  | error d => rwa [hx] at h
  | ok em =>
    rw [hx] at h
    exact hQ _ _ h

theorem behind {x y : Emitter σ Unit} {Q R : Unit → σ → Prop} (h : Meets x s Q)
    (hy : ∀ t, Q () t → Meets y t R) : Meets (behind x y) s R := by
  unfold Meets at h
  rw [Meets, behind_apply]
  cases hx : x s with
  | error d =>
    rw [hx] at h
    exact h
  | ok back =>
    rw [hx] at h
    have hfront := hy back.state h
    unfold Meets at hfront
    cases hy : y back.state with
    | error d =>
      rw [hy] at hfront
      simpa [hy] using hfront
    | ok front =>
      rw [hy] at hfront
      simpa [hy] using hfront

theorem visit {stmt : Stmt} {x : Emitter σ Unit} {Q : Unit → σ → Prop} (h : Meets x s Q) :
    Meets (visit stmt x) s Q := h

theorem focus {part : τ → σ} {put : σ → τ → τ} {t : τ} {R : α → τ → Prop}
    (h : Meets x (part t) fun a s => R a (put s t)) : Meets (focus part put x) t R := by
  unfold Meets at *
  rw [focus_apply]
  cases hx : x (part t) with
  | error d => rwa [hx] at h
  | ok em =>
    rw [hx] at h
    exact h

end Meets

/-- The emitter succeeds, or registers run out. -/
def Completes (x : Emitter σ α) (s : σ) : Prop := x.Meets s fun _ _ => True

theorem Meets.completes (h : x.Meets s Q) : x.Completes s := h.mono fun _ _ _ => trivial

theorem Completes.bind {f : α → Emitter σ β} (h : x.Completes s) (hf : ∀ a t, (f a).Completes t) :
    (x >>= f).Completes s := Meets.bind h fun a t _ => hf a t

end Emitter

/-! ### Places -/

namespace Expr

theorem eq_name_of_place? {target : Expr} {pos : Position} {x : String}
    (h : target.place? = some (.named pos x)) : target = .name pos x := by
  unfold place? at h
  split at h
  · cases h
    rfl
  · cases h
  · cases h

theorem eq_deref_of_place? {target : Expr} {pos : Position} {x : String}
    (h : target.place? = some (.pointee pos x)) :
    ∃ pos', target = .unary pos' .deref (.name pos x) := by
  unfold place? at h
  split at h
  · cases h
  · cases h
    exact ⟨_, rfl⟩
  · cases h

end Expr

namespace Lowering
open Emitter

variable {table : SymbolTable} {s : Scratch}

/-! ### What is lowered is well formed -/

mutual

/-- An expression that is lowered is well formed. -/
theorem lowerExpr_isWellFormed : ∀ (e : Expr) {s : Scratch} {em : Emission Scratch Register},
    lowerExpr table e s = .ok em → e.IsWellFormed table.env
  | .number .., _, _, _ | .character .., _, _, _ | .bool .., _, _, _ | .text .., _, _, _ => by
    rw [Expr.IsWellFormed]
    trivial
  | .name .., _, _, h => by
    rw [lowerExpr] at h
    rw [Expr.IsWellFormed]
    obtain ⟨symbol, i, hx, -⟩ := loadName_ok h
    exact SymbolTable.knows_of_some hx
  | .assign _ target value, _, _, h => by
    rw [Expr.IsWellFormed]
    obtain ⟨place, hp⟩ := lowerExpr_assign_ok h
    cases place with
    | named at_ x =>
      obtain ⟨symbol, address, a, hx, haddress, ha, -⟩ := lowerExpr_assign_named_ok hp h
      have hconstant := isConstant_of_lowerExpr_assign hp hx h
      obtain rfl := Expr.eq_name_of_place? hp
      refine ⟨?_, lowerExpr_isWellFormed value ha⟩
      rw [Expr.IsAssignable, SymbolTable.lookup_env_of_some hx,
        (Symbol.entity_eq_scalar_iff x).2 ⟨hconstant, address, haddress⟩]
    | pointee at_ x =>
      obtain ⟨a, b, ha, hb, -⟩ := lowerExpr_assign_pointee_ok hp h
      obtain ⟨symbol, i, hx, -⟩ := loadName_ok ha
      obtain ⟨pos, rfl⟩ := Expr.eq_deref_of_place? hp
      exact ⟨SymbolTable.knows_of_some hx, lowerExpr_isWellFormed value hb⟩
  | .logical _ op operands, _, _, h => by
    rw [Expr.IsWellFormed]
    obtain ⟨i, c, -, hc, -⟩ := lowerExpr_logical_ok h
    exact lowerOperands_areWellFormed op operands hc
  | .binary _ op left right, _, _, h => by
    rw [Expr.IsWellFormed]
    obtain ⟨a, b, ha, hb, -⟩ := lowerExpr_binary_ok h
    exact ⟨lowerExpr_isWellFormed left ha, lowerExpr_isWellFormed right hb⟩
  | .unary _ op operand, _, _, h => by
    rw [Expr.IsWellFormed]
    obtain ⟨a, i, ha, -⟩ := lowerExpr_unary_ok h
    exact lowerExpr_isWellFormed operand ha
  | .call _ callee args, _, _, h => by
    rw [Expr.IsWellFormed]
    obtain ⟨a, c, i, ha, hc, -⟩ := lowerExpr_call_ok h
    exact ⟨lowerExpr_isWellFormed callee ha, lowerArguments_areWellFormed args hc⟩

theorem lowerOperands_areWellFormed : ∀ (op : LogicalOp) (es : List Expr) {done : String}
    {s : Scratch} {em : Emission Scratch Unit}, lowerOperands table done op es s = .ok em →
    Expr.AreWellFormed table.env es
  | _, [], _, _, _, _ => by
    rw [Expr.AreWellFormed]
    trivial
  | op, e :: es, _, _, _, h => by
    rw [Expr.AreWellFormed]
    obtain ⟨a, c, ha, hc, -⟩ := lowerOperands_cons_ok h
    exact ⟨lowerExpr_isWellFormed e ha, lowerOperands_areWellFormed op es hc⟩

theorem lowerArguments_areWellFormed : ∀ (es : List Expr) {s : Scratch}
    {em : Emission Scratch Unit}, lowerArguments table es s = .ok em →
    Expr.AreWellFormed table.env es
  | [], _, _, _ => by
    rw [Expr.AreWellFormed]
    trivial
  | e :: es, _, _, h => by
    rw [Expr.AreWellFormed]
    obtain ⟨a, c, ha, hc, -⟩ := lowerArguments_cons_ok h
    exact ⟨lowerExpr_isWellFormed e ha, lowerArguments_areWellFormed es hc⟩

end

/-! ### What is well formed is lowered -/

theorem alloc_completes (pos : Position) (s : Scratch) : (alloc pos).Completes s := by
  unfold Completes Meets
  rw [alloc_apply]
  cases s.pool.alloc? with
  | none => rfl
  | some pair => trivial

theorem load_completes (pos : Position) (source : Operand) (s : Scratch) :
    (load pos source).Completes s := (alloc_completes pos s).bind fun _ _ => trivial

theorem resolve_meets {x : String} {symbol : Symbol} (hx : table.lookup x = some symbol)
    (pos : Position) (s : Scratch) : (resolve table pos x).Meets s fun found _ => found = symbol :=
  .of_ok (resolve_eq_ok_iff.2 ⟨symbol, hx, rfl⟩) rfl

theorem loadName_completes {x : String} (hx : table.env.Knows x) (pos : Position) (s : Scratch) :
    (loadName table pos x).Completes s := by
  obtain ⟨entity, hx⟩ := hx
  obtain ⟨symbol, hsymbol, -⟩ := SymbolTable.exists_of_lookup_env hx
  refine (resolve_meets hsymbol pos s).bind fun _ t _ => ?_
  exact (alloc_completes pos t).bind fun _ _ => trivial

theorem applyUnary_completes (pos : Position) (op : UnaryOp) (source : Register) (s : Scratch) :
    (applyUnary pos op source).Completes s := by
  unfold applyUnary
  refine (alloc_completes pos s).bind fun r t => ?_
  cases op <;> trivial

mutual

/-- A well-formed expression is lowered, unless registers run out. -/
theorem lowerExpr_completes : ∀ (e : Expr), e.IsWellFormed table.env → ∀ s : Scratch,
    (lowerExpr table e).Completes s
  | .number .., _, s | .character .., _, s | .bool .., _, s => by
    rw [lowerExpr]
    exact load_completes _ _ s
  | .text pos content, _, s => by
    rw [lowerExpr]
    have hkeep : (keepString content).Completes s := trivial
    exact hkeep.bind fun label t => load_completes pos _ t
  | .name pos x, h, s => by
    rw [Expr.IsWellFormed] at h
    rw [lowerExpr]
    exact loadName_completes h pos s
  | .assign _ target value, h, s => by
    rw [Expr.IsWellFormed] at h
    rw [lowerExpr]
    obtain ⟨htarget, hvalue⟩ := h
    unfold Expr.IsAssignable at htarget
    split at htarget
    · rename_i pos x
      obtain ⟨symbol, hx, hentity⟩ := SymbolTable.exists_of_lookup_env htarget
      obtain ⟨hconstant, address, haddress⟩ := (Symbol.entity_eq_scalar_iff x).1 hentity
      refine (resolve_meets hx pos s).bind fun found t hfound => ?_
      subst hfound
      rw [if_neg (by simp [hconstant])]
      refine (lowerExpr_completes value hvalue t).bind fun r u => ?_
      have hstore : (store pos x found r).Completes u :=
        .of_ok (store_eq_ok_iff.2 ⟨address, haddress, rfl⟩) trivial
      exact hstore.bind fun _ _ => trivial
    · rename_i pos x
      refine (loadName_completes htarget pos s).bind fun address t => ?_
      exact (lowerExpr_completes value hvalue t).bind fun _ _ => trivial
    · exact htarget.elim
  | .logical pos op operands, h, s => by
    rw [Expr.IsWellFormed] at h
    rw [lowerExpr]
    have hlabel : newLabel.Completes s := trivial
    refine hlabel.bind fun done t => (alloc_completes pos t).bind fun r u => ?_
    have hoperands := lowerOperands_completes op operands h done
    cases op with
    | or => exact Completes.bind trivial fun _ v => (hoperands v).bind fun _ _ => trivial
    | and => exact Completes.bind trivial fun _ v => (hoperands v).bind fun _ _ => trivial
  | .binary _ op left right, h, s => by
    rw [Expr.IsWellFormed] at h
    rw [lowerExpr]
    refine (lowerExpr_completes left h.1 s).bind fun a t => ?_
    exact (lowerExpr_completes right h.2 t).bind fun _ _ => trivial
  | .unary pos op operand, h, s => by
    rw [Expr.IsWellFormed] at h
    rw [lowerExpr]
    refine (lowerExpr_completes operand h s).bind fun source t => ?_
    exact applyUnary_completes pos op source t
  | .call pos callee args, h, s => by
    rw [Expr.IsWellFormed] at h
    rw [lowerExpr]
    have hlive : liveRegisters.Completes s := trivial
    refine hlive.bind fun saved t => Completes.bind trivial fun _ u => ?_
    refine (lowerExpr_completes callee h.1 u).bind fun target v => ?_
    refine (lowerArguments_completes args h.2 v).bind fun _ w => ?_
    refine Completes.bind trivial fun _ _ => Completes.bind trivial fun _ _ => ?_
    refine Completes.bind trivial fun _ _ => Completes.bind trivial fun _ _ => ?_
    exact load_completes pos _ _

theorem lowerOperands_completes : ∀ (op : LogicalOp) (es : List Expr),
    Expr.AreWellFormed table.env es → ∀ (done : String) (s : Scratch),
    (lowerOperands table done op es).Completes s
  | .or, [], _, _, _ | .and, [], _, _, _ => trivial
  | .or, e :: es, h, done, s => by
    rw [Expr.AreWellFormed] at h
    rw [lowerOperands, lowerOr]
    refine (lowerExpr_completes e h.1 s).bind fun r t => ?_
    refine Completes.bind trivial fun _ _ => Completes.bind trivial fun _ u => ?_
    exact lowerOperands_completes .or es h.2 done u
  | .and, e :: es, h, done, s => by
    rw [Expr.AreWellFormed] at h
    rw [lowerOperands, lowerAnd]
    have hlabel : newLabel.Completes s := trivial
    refine hlabel.bind fun ok t => (lowerExpr_completes e h.1 t).bind fun r u => ?_
    refine Completes.bind trivial fun _ _ => Completes.bind trivial fun _ _ => ?_
    refine Completes.bind trivial fun _ _ => Completes.bind trivial fun _ v => ?_
    exact lowerOperands_completes .and es h.2 done v

theorem lowerArguments_completes : ∀ (es : List Expr), Expr.AreWellFormed table.env es →
    ∀ s : Scratch, (lowerArguments table es).Completes s
  | [], _, _ => trivial
  | e :: es, h, s => by
    rw [Expr.AreWellFormed] at h
    rw [lowerArguments]
    refine (lowerExpr_completes e h.1 s).bind fun r t => ?_
    refine Completes.bind trivial fun _ _ => Completes.bind trivial fun _ u => ?_
    exact lowerArguments_completes es h.2 u

end

end Lowering

end WordC
