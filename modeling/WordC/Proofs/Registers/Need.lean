import Mathlib.Data.List.Perm.Basic
import Mathlib.Data.List.FinRange
import WordC.Proofs.Lowering.Expr

/-!
# How many registers an expression needs

`Expr.need` is read off the tree: how many general registers must be free for the expression to be
evaluated. `Demands top x s` says the same of a run of an emitter: it succeeds only if the pool has
`top` registers, and reports that they are used up only if it does not have them. A sequence
demands the larger of what its parts demand, so an expression demands as many registers as are in
use and its need: `lowerExpr_demands`.
-/

namespace WordC

namespace Expr

mutual

/-- The general registers that an expression needs, its result included. -/
def need : Expr → Nat
  | .number _ _ | .character _ _ | .bool _ _ | .text _ _ | .name _ _ => 1
  | .assign _ target value =>
    match target.place? with
    | some (.named _ _) => value.need
    | some (.pointee _ _) => 1 + value.need
    | none => 0
  | .logical _ _ operands => 1 + needOfAll operands
  | .binary _ _ left right => max left.need (1 + right.need)
  | .unary _ _ operand => max operand.need 2
  | .call _ callee args => max callee.need (1 + needOfAll args)

/-- The largest need in a list of expressions that are evaluated one after the other. -/
def needOfAll : List Expr → Nat
  | [] => 0
  | e :: es => max e.need (needOfAll es)

end

end Expr

namespace RegisterPool

variable {p q : RegisterPool} {r : Register}

/-! ### The number of registers in use -/

theorem live_nodup (p : RegisterPool) : p.live.Nodup := by
  refine List.Nodup.map ?_ ((List.nodup_finRange generalCount).filter _)
  intro i j h
  cases h
  rfl

theorem live_length_le (p : RegisterPool) : p.live.length ≤ generalCount := by
  rw [live, List.length_map]
  exact (List.length_filter_le _ _).trans (by simp)

/-- The registers in use are the old ones and the one that was taken. -/
theorem Takes.live_perm (h : p.Takes r q) : q.live.Perm (r :: p.live) := by
  refine (List.perm_ext_iff_of_nodup q.live_nodup (p.live_nodup.cons h.not_mem_live)).2 ?_
  obtain ⟨i, rfl, -, rfl⟩ := h
  intro a
  simp only [RegisterPool.mem_live, List.mem_cons, isLive_set]
  grind

theorem Takes.live_length (h : p.Takes r q) : q.live.length = p.live.length + 1 := by
  rw [h.live_perm.length_eq, List.length_cons]

/-- No register is free exactly when all are in use. -/
theorem free?_eq_none_iff : p.free? = none ↔ p.live.length = generalCount := by
  have hall : p.live.length = generalCount ↔ ∀ i ∈ List.finRange generalCount, p.isLive i := by
    rw [live, List.length_map, ← List.length_filter_eq_length_iff, List.length_finRange]
  rw [hall, free?, List.find?_eq_none]
  simp

end RegisterPool

/-- Behind a first part that succeeds, it is the second that fails. -/
theorem Emitter.ok_bind_eq_error_iff {σ α β : Type} {x : Emitter σ α} {f : α → Emitter σ β}
    {s : σ} {a : Emission σ α} {d : Diagnostic} (hx : x s = .ok a) :
    (x >>= f) s = .error d ↔ f a.value a.state = .error d := by
  simp [bind_eq_error_iff, hx]

namespace Lowering
open Emitter

variable {α β : Type} {top first rest : Nat} {s : Scratch} {table : SymbolTable}

/-! ### What a run demands -/

/-- The run succeeds only if there are `top` registers, and runs out of them only if there are
not. -/
def Demands (top : Nat) (x : Emitter Scratch α) (s : Scratch) : Prop :=
  match x s with
  | .ok _ => top ≤ generalCount
  | .error d => d.cause = .outOfRegisters → generalCount < top

namespace Demands

variable {x : Emitter Scratch α} {f : α → Emitter Scratch β}

theorem of_ok {em : Emission Scratch α} (h : x s = .ok em) (htop : top ≤ generalCount) :
    Demands top x s := by
  rw [Demands, h]
  exact htop

/-- A report of another kind says nothing about registers. -/
theorem of_error {d : Diagnostic} (h : x s = .error d) (hcause : d.cause ≠ .outOfRegisters) :
    Demands top x s := by
  rw [Demands, h]
  exact fun hd => absurd hd hcause

theorem of_eq (h : Demands first x s) (htop : first = top) : Demands top x s := htop ▸ h

theorem le_of_ok (h : Demands top x s) {em : Emission Scratch α} (hx : x s = .ok em) :
    top ≤ generalCount := by
  rwa [Demands, hx] at h

theorem lt_of_error (h : Demands top x s) {d : Diagnostic} (hx : x s = .error d)
    (hcause : d.cause = .outOfRegisters) : generalCount < top := by
  rw [Demands, hx] at h
  exact h hcause

/-- A sequence demands the larger of what its parts demand. -/
theorem bind (h : Demands first x s)
    (hf : ∀ em, x s = .ok em → Demands rest (f em.value) em.state) :
    Demands (max first rest) (x >>= f) s := by
  unfold Demands
  cases hrun : (x >>= f) s with
  | ok em =>
    obtain ⟨a, b, ha, hb, -⟩ := bind_eq_ok_iff.1 hrun
    exact Nat.max_le.2 ⟨h.le_of_ok ha, (hf a ha).le_of_ok hb⟩
  | error d =>
    intro hcause
    rcases bind_eq_error_iff.1 hrun with hx | ⟨a, ha, hb⟩
    · have hfirst := h.lt_of_error hx hcause
      omega
    · have hrest := (hf a ha).lt_of_error hb hcause
      omega

/-- What always succeeds behind a run adds nothing to it. -/
theorem bind_total (h : Demands top x s) (hf : ∀ a t, ∃ em, f a t = .ok em) :
    Demands top (x >>= f) s := by
  refine (h.bind fun a _ => ?_).of_eq (Nat.max_zero top)
  obtain ⟨em, hem⟩ := hf a.value a.state
  exact of_ok hem (Nat.zero_le _)

/-- A first part that succeeds is stepped over. -/
theorem ok_bind {a : Emission Scratch α} (hx : x s = .ok a)
    (hf : Demands top (f a.value) a.state) : Demands top (x >>= f) s := by
  refine ((of_ok hx (Nat.zero_le _)).bind fun b hb => ?_).of_eq (Nat.zero_max top)
  rw [hx] at hb
  cases hb
  exact hf

end Demands

/-! ### Single steps -/

variable {k : Nat} {pos : Position}

theorem alloc_demands (hk : s.pool.live.length = k) : Demands (k + 1) (alloc pos) s := by
  subst hk
  cases hi : s.pool.free? with
  | none =>
    have hfull := RegisterPool.free?_eq_none_iff.1 hi
    rw [Demands, alloc_apply, RegisterPool.alloc?, hi]
    exact fun _ => by omega
  | some i =>
    have hne : s.pool.live.length ≠ generalCount := by
      rw [Ne, ← RegisterPool.free?_eq_none_iff, hi]
      exact Option.some_ne_none i
    have hle := s.pool.live_length_le
    exact .of_ok (alloc_eq_ok_iff.2 ⟨i, hi, rfl⟩) (by omega)

theorem load_demands (hk : s.pool.live.length = k) (source : Operand) :
    Demands (k + 1) (load pos source) s :=
  (alloc_demands hk).bind_total fun _ _ => ⟨_, rfl⟩

theorem emitLines_demands {lines : List Line} {f : Unit → Emitter Scratch α}
    (hf : Demands top (f ()) s) : Demands top (emitLines lines >>= f) s := .ok_bind rfl hf

theorem release_demands {r : Register} {f : Unit → Emitter Scratch α}
    (hf : Demands top (f ()) { s with pool := s.pool.free r }) :
    Demands top (release r >>= f) s := .ok_bind rfl hf

theorem newLabel_demands {f : String → Emitter Scratch α}
    (hf : Demands top (f (flowLabel s.labels)) { s with labels := s.labels + 1 }) :
    Demands top (newLabel >>= f) s := .ok_bind rfl hf

theorem resolve_demands {x : String} {f : Symbol → Emitter Scratch α}
    (hf : ∀ symbol, Demands top (f symbol) s) :
    Demands top (resolve table pos x >>= f) s := by
  cases hx : table.lookup x with
  | some symbol => exact .ok_bind (resolve_eq_ok_iff.2 ⟨symbol, hx, rfl⟩) (hf symbol)
  | none =>
    have hfail : (resolve table pos x : Emitter Scratch Symbol) s =
        .error ⟨pos, .undeclared x⟩ := by
      rw [resolve, hx]
      rfl
    exact .of_error (bind_eq_error_iff.2 (.inl hfail)) (by simp)

theorem loadName_demands (hk : s.pool.live.length = k) (x : String) :
    Demands (k + 1) (loadName table pos x) s :=
  resolve_demands fun _ => (alloc_demands hk).bind_total fun _ _ => ⟨_, rfl⟩

theorem store_demands {x : String} {symbol : Symbol} {r : Register} :
    Demands 0 (store pos x symbol r) s := by
  unfold store
  cases storeAddress? x symbol with
  | some address => exact .of_ok rfl (Nat.zero_le _)
  | none => exact .of_error rfl nofun

theorem applyUnary_demands (hk : s.pool.live.length = k) (op : UnaryOp) (source : Register) :
    Demands (k + 1) (applyUnary pos op source) s := by
  refine (alloc_demands hk).bind_total fun r t => ?_
  cases op <;> exact ⟨_, rfl⟩

/-- Behind an expression one more register is in use. -/
theorem lowerExpr_live_length {e : Expr} {em : Emission Scratch Register}
    (h : lowerExpr table e s = .ok em) (hk : s.pool.live.length = k) :
    em.state.pool.live.length = k + 1 := by
  rw [(lowerExpr_takes e h).live_length, hk]

/-- When its result is given back, as many are in use as before. -/
theorem lowerExpr_released_length {e : Expr} {em : Emission Scratch Register}
    (h : lowerExpr table e s = .ok em) (hk : s.pool.live.length = k) :
    (em.state.pool.free em.value).live.length = k := by
  rw [(lowerExpr_takes e h).free_eq, hk]

/-- A register can be loaded as long as not all are in use. -/
theorem load_isOk (h : s.pool.live.length < generalCount) (pos : Position) (source : Operand) :
    ∃ em, load pos source s = .ok em := by
  have hne : s.pool.free? ≠ none := by
    rw [Ne, RegisterPool.free?_eq_none_iff]
    omega
  obtain ⟨i, hi⟩ := Option.ne_none_iff_exists'.1 hne
  exact ⟨_, bind_eq_ok_iff.2 ⟨_, _, alloc_eq_ok_iff.2 ⟨i, hi, rfl⟩, rfl, rfl⟩⟩

/-- The result of a call has a register: that of the callee is given back before. -/
theorem callResult_isOk {callee : Expr} {args : List Expr} {a : Emission Scratch Register}
    {c : Emission Scratch Unit} (ha : lowerExpr table callee s = .ok a)
    (hc : lowerArguments table args a.state = .ok c) (pos : Position) :
    ∃ em, load pos Register.rv { c.state with pool := c.state.pool.free a.value } = .ok em := by
  have hpool : c.state.pool.free a.value = s.pool := by
    rw [lowerArguments_pool args hc, (lowerExpr_takes callee ha).free_eq]
  have hroom : s.pool.live.length < generalCount := by
    have htaken := (lowerExpr_takes callee ha).live_length
    have hle := a.state.pool.live_length_le
    omega
  exact load_isOk (hpool ▸ hroom) pos _

/-- Lowering a call fails in its callee or in its arguments. -/
theorem lowerExpr_call_error_iff {callee : Expr} {args : List Expr} {d : Diagnostic} :
    lowerExpr table (.call pos callee args) s = .error d ↔ lowerExpr table callee s = .error d ∨
      ∃ a, lowerExpr table callee s = .ok a ∧ lowerArguments table args a.state = .error d := by
  have hrun : lowerExpr table (.call pos callee args) s = .error d ↔
      (lowerExpr table callee >>= fun target => do
        lowerArguments table args
        emit (.call target)
        release target
        emitCode (dropArguments args.length)
        emitCode (s.pool.live.reverse.map .pop)
        load pos Register.rv) s = .error d := by
    rw [lowerExpr, ok_bind_eq_error_iff (a := ⟨s.pool.live, [], s⟩) rfl,
      ok_bind_eq_error_iff rfl]
  rw [hrun, bind_eq_error_iff]
  refine or_congr_right (exists_congr fun a => and_congr_right fun ha => ?_)
  rw [bind_eq_error_iff, or_iff_left]
  rintro ⟨c, hc, hend⟩
  obtain ⟨em, hem⟩ := callResult_isOk ha hc pos
  rw [ok_bind_eq_error_iff rfl, ok_bind_eq_error_iff rfl, ok_bind_eq_error_iff rfl,
    ok_bind_eq_error_iff rfl] at hend
  exact nomatch hem.symm.trans hend

/-! ### Expressions -/

mutual

/-- With `k` registers in use, an expression demands `k` and its need. -/
theorem lowerExpr_demands : ∀ (e : Expr) {s : Scratch} {k : Nat}, s.pool.live.length = k →
    Demands (k + e.need) (lowerExpr table e) s
  | .number .., _, _, hk | .character .., _, _, hk | .bool .., _, _, hk => by
    rw [lowerExpr, Expr.need]
    exact load_demands hk _
  | .text _ content, s, k, hk => by
    rw [lowerExpr, Expr.need]
    have hkept : (Scratch.mk s.pool s.labels (s.strings ++ [content])).pool.live.length = k := hk
    exact .ok_bind rfl (load_demands hkept _)
  | .name .., _, _, hk => by
    rw [lowerExpr, Expr.need]
    exact loadName_demands hk _
  | .assign _ target value, s, k, hk => by
    rw [lowerExpr, Expr.need]
    cases target.place? with
    | none => exact .of_error rfl (by simp)
    | some place =>
      cases place with
      | named at_ x =>
        refine resolve_demands fun symbol => ?_
        cases symbol.isConstant with
        | true => exact .of_error rfl (by simp)
        | false =>
          refine ((lowerExpr_demands value hk).bind fun a ha => ?_).of_eq (Nat.max_zero _)
          exact store_demands.bind_total fun _ _ => ⟨_, rfl⟩
      | pointee at_ x =>
        have hvalue : ∀ a, loadName table at_ x s = .ok a →
            a.state.pool.live.length = k + 1 := by
          intro a ha
          rw [(loadName_takes ha).live_length, hk]
        refine ((loadName_demands hk x).bind fun a ha =>
          (lowerExpr_demands value (hvalue a ha)).bind_total fun _ _ => ⟨_, rfl⟩).of_eq ?_
        dsimp only
        omega
  | .logical pos op operands, s, k, hk => by
    rw [lowerExpr, Expr.need]
    have htaken : ∀ a, alloc pos { s with labels := s.labels + 1 } = .ok a →
        a.state.pool.live.length = k + 1 := by
      intro a ha
      obtain ⟨i, hi, rfl⟩ := alloc_eq_ok_iff.1 ha
      rw [← hk]
      exact (RegisterPool.takes_of_free? hi).live_length
    have halloc : Demands (k + 1) (alloc pos) { s with labels := s.labels + 1 } := alloc_demands hk
    have hrest : max (k + 1) (k + 1 + Expr.needOfAll operands) =
        k + (1 + Expr.needOfAll operands) := by omega
    refine newLabel_demands ((halloc.bind fun a ha => ?_).of_eq hrest)
    have hoperands (done : String) : Demands (k + 1 + Expr.needOfAll operands)
        (lowerOperands table done op operands) a.state :=
      lowerOperands_demands op operands (htaken a ha)
    cases op with
    | or => exact emitLines_demands ((hoperands _).bind_total fun _ _ => ⟨_, rfl⟩)
    | and => exact emitLines_demands ((hoperands _).bind_total fun _ _ => ⟨_, rfl⟩)
  | .binary _ op left right, s, k, hk => by
    rw [lowerExpr, Expr.need]
    refine ((lowerExpr_demands left hk).bind fun a ha =>
      (lowerExpr_demands right (lowerExpr_live_length ha hk)).bind_total fun _ _ =>
        ⟨_, rfl⟩).of_eq ?_
    omega
  | .unary _ op operand, s, k, hk => by
    rw [lowerExpr, Expr.need]
    refine ((lowerExpr_demands operand hk).bind fun a ha =>
      applyUnary_demands (lowerExpr_live_length ha hk) op a.value).of_eq ?_
    omega
  | .call pos callee args, s, k, hk => by
    rw [lowerExpr, Expr.need]
    have hrest : max (k + callee.need) (max (k + 1 + Expr.needOfAll args) 0) =
        k + max callee.need (1 + Expr.needOfAll args) := by omega
    refine .ok_bind rfl (.ok_bind rfl (((lowerExpr_demands callee hk).bind fun a ha =>
      (lowerArguments_demands args (lowerExpr_live_length ha hk)).bind fun c hc => ?_).of_eq hrest))
    obtain ⟨em, hem⟩ := callResult_isOk ha hc pos
    exact emitLines_demands (release_demands (emitLines_demands (emitLines_demands
      (.of_ok hem (Nat.zero_le _)))))

theorem lowerOperands_demands : ∀ (op : LogicalOp) (es : List Expr) {done : String} {s : Scratch}
    {k : Nat}, s.pool.live.length = k →
    Demands (k + Expr.needOfAll es) (lowerOperands table done op es) s
  | .or, [], _, s, _, hk => by
    rw [Expr.needOfAll, ← hk, lowerOperands, lowerOr]
    exact .of_ok rfl s.pool.live_length_le
  | .and, [], _, s, _, hk => by
    rw [Expr.needOfAll, ← hk, lowerOperands, lowerAnd]
    exact .of_ok rfl s.pool.live_length_le
  | .or, e :: es, done, s, k, hk => by
    rw [Expr.needOfAll, lowerOperands, lowerOr]
    refine ((lowerExpr_demands e hk).bind fun a ha => emitLines_demands (release_demands
      (lowerOperands_demands .or es (lowerExpr_released_length ha hk)))).of_eq ?_
    omega
  | .and, e :: es, done, s, k, hk => by
    rw [Expr.needOfAll, lowerOperands, lowerAnd]
    have hk' : ({ s with labels := s.labels + 1 } : Scratch).pool.live.length = k := hk
    refine newLabel_demands (((lowerExpr_demands e hk').bind fun a ha => emitLines_demands
      (release_demands (emitLines_demands (emitLines_demands
        (lowerOperands_demands .and es (lowerExpr_released_length ha hk')))))).of_eq ?_)
    omega

theorem lowerArguments_demands : ∀ (es : List Expr) {s : Scratch} {k : Nat},
    s.pool.live.length = k →
    Demands (k + Expr.needOfAll es) (lowerArguments table es) s
  | [], s, _, hk => by
    rw [Expr.needOfAll, ← hk, lowerArguments]
    exact .of_ok rfl s.pool.live_length_le
  | e :: es, s, k, hk => by
    rw [Expr.needOfAll, lowerArguments]
    refine ((lowerExpr_demands e hk).bind fun a ha => emitLines_demands (release_demands
      (lowerArguments_demands es (lowerExpr_released_length ha hk)))).of_eq ?_
    omega

end

/-- Registers run out exactly when an expression needs too many. If an expression is lowered
with `k` registers in use, then `k` and its need are not more than there are; if it fails for want
of a register, they are. The result of a call always has a register: lowering a call fails in its
callee or in its arguments, if at all. -/
theorem lowerExpr_exhausts_by_need (table : SymbolTable) (e : Expr) (s : Scratch) :
    (∀ em, lowerExpr table e s = .ok em → s.pool.live.length + e.need ≤ generalCount) ∧
    (∀ d, lowerExpr table e s = .error d → d.cause = .outOfRegisters →
      generalCount < s.pool.live.length + e.need) ∧
    ∀ pos callee args, e = .call pos callee args → ∀ d,
      (lowerExpr table e s = .error d ↔ lowerExpr table callee s = .error d ∨
        ∃ target, lowerExpr table callee s = .ok target ∧
          lowerArguments table args target.state = .error d) := by
  have hdemands : Demands (s.pool.live.length + e.need) (lowerExpr table e) s :=
    lowerExpr_demands e rfl
  refine ⟨fun em h => hdemands.le_of_ok h, fun d h hcause => hdemands.lt_of_error h hcause, ?_⟩
  rintro pos callee args rfl d
  exact lowerExpr_call_error_iff

/-- `f(1 + (1 + …))` needs a register for `f` and one for each summand: there are enough for
fifteen summands, and the sixteenth has none. -/
theorem lowerExpr_exhausts_by_need_sum :
    let table : SymbolTable := ⟨[("f", .function 1 true)], []⟩
    let sum (n : Nat) : Expr :=
      n.repeat (.binary default .add (.number default 1)) (.number default 1)
    let call (n : Nat) : Expr := .call default (.name default "f") [sum n]
    ((lowerExpr table (call 14) .empty).toOption.isSome ∧ (call 14).need ≤ 16) ∧
    (lowerExpr table (call 15) .empty = .error ⟨default, .outOfRegisters⟩ ∧
      16 < (call 15).need) ∧
    ∃ target, lowerExpr table (.name default "f") .empty = .ok target ∧
      lowerArguments table [sum 15] target.state = .error ⟨default, .outOfRegisters⟩ := by
  intro table sum call
  have hok : (lowerExpr table (call 14) .empty).toOption.isSome := by decide +kernel
  have hfail : lowerExpr table (call 15) .empty = .error ⟨default, .outOfRegisters⟩ := by
    decide +kernel
  have hempty : Scratch.empty.pool.live.length = 0 := by decide
  obtain ⟨hfits, -⟩ := lowerExpr_exhausts_by_need table (call 14) .empty
  obtain ⟨-, hexceeds, hcall⟩ := lowerExpr_exhausts_by_need table (call 15) .empty
  rw [hempty, Nat.zero_add] at hfits hexceeds
  refine ⟨⟨hok, ?_⟩, ⟨hfail, hexceeds _ hfail rfl⟩, ?_⟩
  · cases hrun : lowerExpr table (call 14) .empty with
    | ok em => exact hfits em hrun
    | error d =>
      rw [hrun] at hok
      cases hok
  · rcases (hcall _ _ _ rfl _).1 hfail with hcallee | hargs
    · have hname : (lowerExpr table (.name default "f") .empty).toOption.isSome := by
        decide +kernel
      rw [hcallee] at hname
      cases hname
    · exact hargs

end Lowering

end WordC
