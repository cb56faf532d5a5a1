import WordC.Proofs.Frame.Layout
import WordC.Proofs.WellFormed.Expr

/-!
# Well-formed statements are lowered

What is lowered is well formed (`lowerStmt_isWellFormed`), and what is well formed is lowered unless
the registers run out (`Stmt.IsWellFormed.meets`). The second needs that no array has an initial
value, which holds of what the parser gives.
-/

namespace WordC
open Lowering

/-! ### Scopes -/

namespace SymbolTable

variable (table : SymbolTable)

@[simp] theorem env_openScope : table.openScope.env = table.env.openScope := rfl

@[simp] theorem env_closeScope : table.closeScope.env = table.env.closeScope := by
  simp [env, closeScope, Env.closeScope]

@[simp] theorem env_closeAll : table.closeAll.env = table.env.closeAll := rfl

end SymbolTable

/-! ### Declarations -/

theorem isGeneratedLabel_iff (x : String) : isGeneratedLabel x = true ↔ Env.IsReserved x := by
  unfold isGeneratedLabel Env.IsReserved
  cases hx : x.toList with
  | nil => simp
  | cons c digits => simp [and_assoc]

theorem Scope.entity?_insert (scope : Scope) (x : String) (symbol : Symbol) :
    (scope.insert x symbol).entity? = Function.update scope.entity? x (some symbol.entity) := by
  funext y
  rw [entity?, get?_insert, Function.update_apply]
  by_cases h : x = y
  · rw [if_pos h, if_pos h.symm, Option.map_some]
  · rw [if_neg h, if_neg (Ne.symm h), entity?]

namespace Symbol

variable {old : Option Symbol} {symbol merged : Symbol}

theorem joins_of_merge? (h : merge? old symbol = some merged) :
    Env.Joins (old.map entity) symbol.entity merged.entity := by
  unfold merge? at h
  split at h
  · cases h
    exact .new _
  · split at h
    · rename_i hsame
      cases h
      obtain ⟨rfl, hbodies⟩ := hsame
      exact .again (by simpa using hbodies)
    · cases h
  · cases h

/-- Only functions are declared as functions. -/
theorem eq_function_of_entity {arity : Nat} {defined : Bool}
    (h : symbol.entity = .function arity defined) : symbol = .function arity defined := by
  cases symbol with
  | stack offset ty constant | static ty constant =>
    cases hty : ty.isArray <;> simp [entity, Ty.entity, hty] at h
  | function => simpa [entity] using h

theorem merge?_of_joins {joined : Entity}
    (h : Env.Joins (old.map entity) symbol.entity joined) :
    ∃ merged, merge? old symbol = some merged ∧ merged.entity = joined := by
  generalize hold : old.map entity = before at h
  generalize hnew : symbol.entity = entity at h
  cases h with
  | new =>
    rw [Option.map_eq_none_iff] at hold
    subst hold
    exact ⟨symbol, rfl, hnew⟩
  | again hbodies =>
    obtain ⟨first, rfl, hfirst⟩ := Option.map_eq_some_iff.1 hold
    rw [eq_function_of_entity hfirst, eq_function_of_entity hnew]
    exact ⟨_, if_pos ⟨rfl, hbodies⟩, rfl⟩

end Symbol

namespace SymbolTable

variable {table table' : SymbolTable} {x : String} {symbol : Symbol}

/-- A name that the table takes may be declared; in a scope it is that of a variable. -/
theorem declares_of_declare (hkind : table.scopes ≠ [] → symbol.isGlobal = false)
    (h : table.declare x symbol = .ok table') : table.env.Declares x symbol.entity table'.env := by
  obtain ⟨merged, hscopes, hname, hmerge, rfl⟩ | ⟨scope, outer, merged, hscopes, hmerge, rfl⟩ :=
    declare_ok h
  · rw [env, env, hscopes, Scope.entity?_insert]
    refine .file ?_ (Symbol.joins_of_merge? hmerge)
    rw [← isGeneratedLabel_iff, hname]
    exact Bool.false_ne_true
  · have hlocal := hkind (by simp [hscopes])
    cases symbol with
    | static => cases hlocal
    | function => cases hlocal
    | stack offset ty constant =>
      obtain ⟨hnew, rfl⟩ := Symbol.merge?_stack hmerge
      rw [env, env, hscopes, List.map_cons, List.map_cons, Scope.entity?_insert]
      exact .scope (by rw [Scope.entity?, hnew, Option.map_none])

/-- A name that may be declared is taken. -/
theorem declare_of_declares {env' : Env} (h : table.env.Declares x symbol.entity env') :
    ∃ table', table.declare x symbol = .ok table' ∧ table'.env = env' := by
  obtain ⟨globals, scopes⟩ := table
  cases scopes with
  | nil =>
    obtain ⟨hname, hjoins⟩ | - := h
    obtain ⟨merged, hmerge, rfl⟩ := Symbol.merge?_of_joins hjoins
    have hfree : isGeneratedLabel x = false := by
      rwa [← isGeneratedLabel_iff, Bool.not_eq_true] at hname
    refine ⟨⟨globals.insert x merged, []⟩, ?_, ?_⟩
    · simp [declare_eq, current, setCurrent, hfree, hmerge]
    · rw [env, Scope.entity?_insert]
      rfl
  | cons scope outer =>
    obtain - | hnew := h
    have hget : scope.get? x = none := Option.map_eq_none_iff.1 hnew
    refine ⟨⟨globals, scope.insert x symbol :: outer⟩, ?_, ?_⟩
    · simp [declare_eq, current, setCurrent, hget, Symbol.merge?]
    · rw [env, List.map_cons, Scope.entity?_insert]

end SymbolTable

/-! ### What is lowered is well formed -/

/-- Outside of functions there are no scopes, and inside there are. -/
theorem Session.Valid.scopes_env {s : Session} {depth : Nat} (hs : s.Valid depth) :
    s.symbols.env.scopes = [] ↔ s.frame = none := by
  rw [SymbolTable.env, List.map_eq_nil_iff, ← List.length_eq_zero_iff, hs.symbols.length_scopes,
    hs.frame]

theorem Session.Valid.scopes_env_ne_nil {s : Session} {depth : Nat} (hs : s.Valid depth)
    (hf : s.frame.isSome = true) : s.symbols.env.scopes ≠ [] := by
  rwa [Ne, hs.scopes_env, ← Ne, ← Option.isSome_iff_ne_none]

namespace Lowering

variable {s : Session} {em : Emission Session Unit}

theorem place_entity {pos : Position} {ty : Ty} {constant : Bool} {p : Emission Session Symbol}
    (h : place pos ty constant s = .ok p) : p.value.entity = ty.entity constant := by
  cases hf : s.frame with
  | none =>
    rw [place_of_none hf h]
    rfl
  | some frame =>
    obtain ⟨bytes, -, rfl⟩ := place_of_some hf h
    rfl

/-- A variable is declared where it is placed. -/
theorem declares_of_place {pos : Position} {ty : Ty} {constant : Bool} {p : Emission Session Symbol}
    {x : String} {scratch : Scratch} {table : SymbolTable} {depth : Nat} (hs : s.Valid depth)
    (hp : place pos ty constant { s with scratch } = .ok p)
    (ht : s.symbols.declare x p.value = .ok table) :
    s.symbols.env.Declares x (ty.entity constant) table.env := by
  rw [← place_entity hp]
  refine SymbolTable.declares_of_declare (fun hscopes => ?_) ht
  rw [← Bool.not_eq_true, (place_isGlobal hp).1, ← hs.scopes_env, SymbolTable.env]
  simpa using hscopes

theorem declares_function {table table' : SymbolTable} {head : Signature} {defined : Bool}
    (hfile : table.env.scopes = [])
    (h : table.declare head.name (functionSymbol head defined) = .ok table') :
    table.env.Declares head.name (.function head.params.length defined) table'.env := by
  refine SymbolTable.declares_of_declare (fun hscopes => ?_) h
  exact absurd (List.map_eq_nil_iff.1 hfile) hscopes

theorem evaluateOption_isWellFormed {e : Option Expr} (h : evaluateOption e s = .ok em) :
    (∀ x ∈ e, x.IsWellFormed s.symbols.env) ∧ em.state.symbols = s.symbols := by
  cases e with
  | none =>
    rw [evaluateOption_none_ok h]
    exact ⟨by simp, rfl⟩
  | some e =>
    obtain ⟨a, ha, rfl⟩ := evaluateOnly_ok h
    exact ⟨by simpa using lowerExpr_isWellFormed e ha, rfl⟩

theorem branch_isWellFormed {cond : Expr} {ok otherwise : String}
    (h : branch cond ok otherwise s = .ok em) :
    cond.IsWellFormed s.symbols.env ∧ em.state.symbols = s.symbols := by
  obtain ⟨a, ha, rfl⟩ := branch_ok h
  exact ⟨lowerExpr_isWellFormed cond ha, rfl⟩

theorem loopTest_isWellFormed {done : String} {cond : Option Expr}
    (h : loopTest done cond s = .ok em) :
    (∀ x ∈ cond, x.IsWellFormed s.symbols.env) ∧ em.state.symbols = s.symbols := by
  cases cond with
  | none =>
    rw [Emitter.pure_eq_ok_iff.1 h]
    exact ⟨by simp, rfl⟩
  | some cond => simpa using branch_isWellFormed (loopTest_some_ok h)

/-- The step of a loop is read behind the body. -/
theorem lowerLoop_isWellFormed {cond step : Option Expr} {body : Stmt} {depth : Nat}
    (hbody : ∀ {s : Session} {em : Emission Session Unit}, lowerStmt body s = .ok em →
      s.Valid depth → body.IsWellFormed .asRun s.symbols.env em.state.symbols.env)
    (h : lowerLoop cond step (lowerStmt body) s = .ok em) (hs : s.Valid depth) :
    (∀ x ∈ cond, x.IsWellFormed s.symbols.env) ∧
      body.IsWellFormed .asRun s.symbols.env em.state.symbols.env ∧
      ∀ x ∈ step, x.IsWellFormed em.state.symbols.env := by
  obtain ⟨t, b, u, ht, hb, hu, rfl⟩ := lowerLoop_ok h
  have hskip : (s.skipLabels 2).Valid depth := ⟨hs.symbols, hs.frame⟩
  obtain ⟨hcond, htest⟩ := loopTest_isWellFormed ht
  obtain ⟨hstep, hagain⟩ := evaluateOption_isWellFormed hu
  have hstmt := hbody hb ((loopTest_emits ht).valid hskip)
  rw [htest] at hstmt
  simp only [hagain]
  exact ⟨hcond, hstmt, hstep⟩

theorem declareParams_declares {pos : Position} {function : String} :
    ∀ {params : List Param} {s : Session} {em : Emission Session Unit},
    declareParams pos function params s = .ok em →
    s.symbols.env.DeclaresParams params em.state.symbols.env
  | [], _, _, h => by
    rw [declareParams_nil_ok h]
    exact .nil _
  | param :: params, s, _, h => by
    obtain ⟨offset, table, -, ht, h⟩ := declareParams_cons_ok h
    exact .cons (SymbolTable.declares_of_declare (fun _ => rfl) ht) (declareParams_declares h)

/-- An offset reaches the first of the parameters. -/
theorem length_le_of_declareParams {pos : Position} {function : String} {params : List Param}
    (h : declareParams pos function params s = .ok em) : params.length ≤ maxParams := by
  cases params with
  | nil => exact Nat.zero_le _
  | cons param params =>
    obtain ⟨offset, table, ho, -⟩ := declareParams_cons_ok h
    unfold paramOffset? at ho
    split at ho
    · rename_i hlt
      simp only [wordBytes] at hlt
      simp only [List.length_cons, maxParams]
      omega
    · cases ho

theorem lowerItems_areWellFormed_of {items : List Stmt} {depth : Nat}
    (hitems : ∀ item ∈ items, ∀ {s : Session} {em : Emission Session Unit},
      lowerStmt item s = .ok em → s.Valid depth →
      item.IsWellFormed .asRun s.symbols.env em.state.symbols.env) :
    ∀ {s : Session} {em : Emission Session Unit}, lowerItems items s = .ok em → s.Valid depth →
      Stmt.AreWellFormed .asRun s.symbols.env items em.state.symbols.env := by
  induction items with
  | nil =>
    intro s em h hs
    rw [lowerItems_nil_ok h]
    exact .nil _
  | cons item items ih =>
    intro s em h hs
    obtain ⟨a, b, ha, hb, rfl⟩ := lowerItems_cons_ok h
    rw [List.forall_mem_cons] at hitems
    have hrest := ih hitems.2 hb ((lowerStmt_emits item ha).valid hs)
    exact .cons (hitems.1 ha hs) hrest

/-- A statement that is lowered is well formed. -/
theorem lowerStmt_isWellFormed (stmt : Stmt) : ∀ {s : Session} {em : Emission Session Unit}
    {depth : Nat}, lowerStmt stmt s = .ok em → s.Valid depth →
    stmt.IsWellFormed .asRun s.symbols.env em.state.symbols.env := by
  induction stmt using Stmt.induct with
  | var pos decl =>
    intro s em depth h hs
    rw [lowerStmt, Emitter.visit_apply] at h
    cases hinit : decl.init with
    | none =>
      obtain ⟨p, table, hp, ht, rfl⟩ := lowerVariable_none_ok hinit h
      exact .var (by simp [hinit]) (declares_of_place hs hp ht)
    | some init =>
      obtain ⟨a, p, table, address, ha, hp, ht, -, rfl⟩ := lowerVariable_some_ok hinit h
      exact .var (by simpa [hinit] using lowerExpr_isWellFormed init ha)
        (declares_of_place hs hp ht)
  | prototype pos head =>
    intro s em depth h hs
    rw [lowerStmt, Emitter.visit_apply] at h
    obtain ⟨hf, table, ht, rfl⟩ := declareFunction_ok h
    have hfile := hs.scopes_env.2 hf
    exact .prototype hfile (declares_function hfile ht)
  | function pos head body ih =>
    intro s em depth h hs
    rw [lowerStmt_function_apply] at h
    obtain ⟨hf, table, p, b, r, ht, hp, hb, hr, rfl⟩ := lowerFunction_run h
    obtain ⟨-, -, hstate⟩ := leaveFunction_ok hr
    obtain ⟨-, hinside, -⟩ := hs.enterFunction hf ht (enterFunction_ok hp)
    obtain ⟨-, hfits, -⟩ := lowerItems_places hp hb
    have hfile := hs.scopes_env.2 hf
    have hparams := enterFunction_ok hp
    have hbody := lowerItems_areWellFormed_of (fun item hitem => ih item hitem) hb hinside
    rw [hstate]
    exact .function hfile (declares_function hfile ht) (declareParams_declares hparams) hbody
      (length_le_of_declareParams hparams) hfits
  | block pos items ih =>
    intro s em depth h hs
    rw [lowerStmt, Emitter.visit_apply] at h
    obtain ⟨hsome, a, ha, rfl⟩ | ⟨hf, ha⟩ := inScope_ok h
    · have hin := hs.scopes_env_ne_nil hsome
      obtain ⟨-, hopen⟩ := hs.openBlock hsome
      have hitems := lowerItems_areWellFormed_of (fun item hitem => ih item hitem) ha hopen
      exact SymbolTable.env_closeScope _ ▸ .block hin hitems
    · exact .fileBlock (hs.scopes_env.2 hf)
        (lowerItems_areWellFormed_of (fun item hitem => ih item hitem) ha hs)
  | expr pos e =>
    intro s em depth h hs
    rw [lowerStmt, Emitter.visit_apply] at h
    obtain ⟨a, ha, rfl⟩ := evaluateOnly_ok h
    exact .expr (lowerExpr_isWellFormed e ha)
  | ifThen pos cond yes ih =>
    intro s em depth h hs
    obtain ⟨c, y, hc, hy, rfl⟩ := lowerStmt_ifThen_ok h
    have hskip : (s.skipLabels 2).Valid depth := ⟨hs.symbols, hs.frame⟩
    obtain ⟨hcond, hsymbols⟩ := branch_isWellFormed hc
    have hyes := ih hy ((branch_emits hc).valid hskip)
    rw [hsymbols] at hyes
    exact .ifThen hcond hyes
  | ifElse pos cond yes no ihy ihn =>
    intro s em depth h hs
    obtain ⟨c, y, z, hc, hy, hz, rfl⟩ := lowerStmt_ifElse_ok h
    have hskip : (s.skipLabels 3).Valid depth := ⟨hs.symbols, hs.frame⟩
    have hbranch := (branch_emits hc).valid hskip
    obtain ⟨hcond, hsymbols⟩ := branch_isWellFormed hc
    have hyes := ihy hy hbranch
    rw [hsymbols] at hyes
    have hno := ihn hz ((lowerStmt_emits yes hy).valid hbranch)
    exact .ifElse hcond hyes hno
  | whileLoop pos cond body ih =>
    intro s em depth h hs
    rw [lowerStmt, Emitter.visit_apply] at h
    obtain ⟨hcond, hbody, -⟩ := lowerLoop_isWellFormed (fun h hs => ih h hs) h hs
    exact .whileLoop (by simpa using hcond) hbody
  | forLoop pos init cond step body ih =>
    intro s em depth h hs
    obtain ⟨i, l, hi, hl, rfl⟩ := lowerStmt_forLoop_ok h
    obtain ⟨hinit, hsymbols⟩ := evaluateOption_isWellFormed hi
    obtain ⟨hcond, hbody, hstep⟩ := lowerLoop_isWellFormed (fun h hs => ih h hs) hl
      ((evaluateOption_emits hi).valid hs)
    rw [hsymbols] at hcond hbody
    exact .forLoop hinit hcond hbody hstep
  | ret pos value =>
    intro s em depth h hs
    rw [lowerStmt, Emitter.visit_apply] at h
    cases value with
    | none =>
      obtain ⟨hsome, rfl⟩ := lowerReturn_none_ok h
      exact .ret (hs.scopes_env_ne_nil hsome) (by simp)
    | some e =>
      obtain ⟨hsome, a, ha, rfl⟩ := lowerReturn_some_ok h
      exact .ret (hs.scopes_env_ne_nil hsome) (by simpa using lowerExpr_isWellFormed e ha)

end Lowering

/-! ### What is well formed is lowered -/

/-- A variable with an initial value is no array. -/
def Variable.InitsScalar (decl : Variable) : Prop := decl.init ≠ none → decl.ty.isArray = false

/-- The symbols of the session are those of the environment, and the frame has room for so many
words more. -/
structure Session.Ready (s : Session) (env : Env) (words : Nat) : Prop where
  env_eq : s.symbols.env = env
  frame : s.frame = none ↔ env.scopes = []
  room : ∀ frame ∈ s.frame, wordBytes * (frame.words + words) ≤ maxLocalBytes

namespace Session.Ready

variable {s : Session} {env : Env} {n : Nat}

theorem withScratch (hs : s.Ready env n) (scratch : Scratch) :
    Session.Ready { s with scratch } env n := ⟨hs.env_eq, hs.frame, hs.room⟩

/-- Outside of functions there is no frame to fill. -/
theorem ofFile (hs : s.Ready env n) (hfile : env.scopes = []) (m : Nat) : s.Ready env m where
  env_eq := hs.env_eq
  frame := hs.frame
  room := by simp [hs.frame.2 hfile]

end Session.Ready

namespace Lowering
open Emitter

variable {s : Session} {env env' : Env} {n : Nat} {pos : Position}

theorem onScratch_meets {α : Type} {x : Emitter Scratch α} (hx : x.Completes s.scratch)
    (hs : s.Ready env n) : (onScratch x).Meets s fun _ t => t.Ready env n :=
  .focus (hx.mono fun _ scratch _ => hs.withScratch scratch)

theorem newLabel_meets (hs : s.Ready env n) :
    (onScratch newLabel).Meets s fun _ t => t.Ready env n := onScratch_meets trivial hs

theorem release_meets (r : Register) (hs : s.Ready env n) :
    (onScratch (release r)).Meets s fun _ t => t.Ready env n := onScratch_meets trivial hs

theorem evaluate_meets {e : Expr} (h : e.IsWellFormed env) (hs : s.Ready env n) :
    (evaluate e).Meets s fun _ t => t.Ready env n := by
  obtain rfl := hs.env_eq
  exact .ok_bind rfl (onScratch_meets (lowerExpr_completes e h s.scratch) hs)

theorem evaluateOnly_meets {e : Expr} (h : e.IsWellFormed env) (hs : s.Ready env n) :
    (evaluateOnly e).Meets s fun _ t => t.Ready env n :=
  (evaluate_meets h hs).bind fun r _ ht => release_meets r ht

theorem evaluateOption_meets {e : Option Expr} (h : ∀ x ∈ e, x.IsWellFormed env)
    (hs : s.Ready env n) : (evaluateOption e).Meets s fun _ t => t.Ready env n := by
  cases e with
  | none => exact .pure hs
  | some e => exact evaluateOnly_meets (h e rfl) hs

theorem declare_meets {x : String} {symbol : Symbol} (h : env.Declares x symbol.entity env')
    (hs : s.Ready env n) : (declare pos x symbol).Meets s fun _ t => t.Ready env' n := by
  obtain rfl := hs.env_eq
  obtain ⟨table, ht, rfl⟩ := SymbolTable.declare_of_declares h
  exact .of_ok (declare_eq_ok_iff.2 ⟨table, ht, rfl⟩)
    ⟨rfl, hs.frame.trans (by rw [← List.length_eq_zero_iff, ← h.length_scopes,
      List.length_eq_zero_iff]), hs.room⟩

theorem bytes?_isSome (function : String) {words : Nat} (h : wordBytes * words ≤ maxLocalBytes) :
    ∃ bytes, (Frame.mk function words).bytes? = some bytes := ⟨_, if_pos h⟩

theorem place_meets {ty : Ty} {constant : Bool} (hs : s.Ready env (ty.words + n)) :
    (place pos ty constant).Meets s fun symbol t =>
      symbol.entity = ty.entity constant ∧ t.Ready env n := by
  refine .ok_bind rfl ?_
  cases hf : s.frame with
  | none => exact .pure ⟨rfl, hs.env_eq, hs.frame, by simp [hf]⟩
  | some frame =>
    have hroom := hs.room frame hf
    rw [← Nat.add_assoc] at hroom
    have hfits : wordBytes * (frame.words + ty.words) ≤ maxLocalBytes :=
      le_trans (Nat.mul_le_mul_left _ (Nat.le_add_right _ _)) hroom
    obtain ⟨bytes, hbytes⟩ := bytes?_isSome frame.function hfits
    simp only [hbytes]
    refine .ok_bind rfl (.pure ⟨rfl, hs.env_eq, ?_, ?_⟩)
    · simpa [hf] using hs.frame
    · simpa using hroom

theorem lowerVariable_meets {decl : Variable} (hscalar : decl.InitsScalar)
    (hinit : ∀ e ∈ decl.init, e.IsWellFormed env)
    (h : env.Declares decl.name (decl.ty.entity decl.constant) env')
    (hs : s.Ready env (decl.ty.words + n)) :
    (lowerVariable pos decl).Meets s fun _ t => t.Ready env' n := by
  unfold lowerVariable
  cases hd : decl.init with
  | none =>
    refine (place_meets hs).bind fun symbol t ht => ?_
    rw [← ht.1] at h
    exact declare_meets h ht.2
  | some init =>
    refine (evaluate_meets (hinit init hd) hs).bind fun r t ht => ?_
    refine (place_meets ht).bind fun symbol u hu => ?_
    have hentity : symbol.entity = .scalar decl.constant := by
      rw [hu.1, Ty.entity, hscalar (by simp [hd])]
      rfl
    obtain ⟨-, address, haddress⟩ := (Symbol.entity_eq_scalar_iff decl.name).1 hentity
    rw [← hu.1] at h
    refine (declare_meets h hu.2).bind fun _ v hv => ?_
    refine .ok_bind (store_eq_ok_iff.2 ⟨address, haddress, rfl⟩) ?_
    exact release_meets r hv

theorem paramOffset?_isSome {remaining : Nat} (h : remaining ≤ maxParams) :
    ∃ offset, paramOffset? remaining = some offset := by
  refine ⟨_, if_pos ?_⟩
  simp only [wordBytes, maxParams] at *
  omega

theorem declareParams_meets {function : String} {params : List Param}
    (h : env.DeclaresParams params env') : ∀ {s : Session}, params.length ≤ maxParams →
    s.Ready env n → (declareParams pos function params).Meets s fun _ t => t.Ready env' n := by
  induction h with
  | nil env => exact fun _ hs => .pure hs
  | @cons env env' env'' param params h hs ih =>
    intro s hcount hready
    obtain ⟨offset, hoffset⟩ := paramOffset?_isSome hcount
    rw [List.length_cons] at hcount hoffset
    simp only [declareParams, hoffset]
    exact (declare_meets h hready).bind fun _ t ht => ih (Nat.le_of_succ_le hcount) ht

theorem declareFunction_meets {head : Signature} {defined : Bool} (hfile : env.scopes = [])
    (h : env.Declares head.name (.function head.params.length defined) env') (hs : s.Ready env n) :
    (declareFunction pos head defined).Meets s fun _ t => t.Ready env' n := by
  refine .ok_bind rfl ?_
  rw [hs.frame.2 hfile]
  exact declare_meets h hs

theorem enterFunction_meets {head : Signature} {words : Nat}
    (h : env.openScope.DeclaresParams head.params env') (hcount : head.params.length ≤ maxParams)
    (hwords : wordBytes * words ≤ maxLocalBytes) (hs : s.Ready env n) :
    (enterFunction pos head).Meets s fun _ t => t.Ready env' words := by
  obtain rfl := hs.env_eq
  refine .ok_bind rfl (.ok_bind rfl (declareParams_meets h hcount ⟨rfl, ?_, ?_⟩))
  · simp [Env.openScope]
  · simpa using hwords

theorem leaveFunction_meets (hs : s.Ready env 0) (m : Nat) :
    (leaveFunction pos).Meets s fun _ t => t.Ready env.closeAll m := by
  have hleft : Session.Ready ⟨s.scratch, s.symbols.closeAll, none⟩ env.closeAll m :=
    ⟨by rw [SymbolTable.env_closeAll, hs.env_eq], by simp [Env.closeAll], by simp⟩
  refine .ok_bind rfl (.ok_bind rfl ?_)
  cases hf : s.frame with
  | none => exact .pure hleft
  | some frame =>
    obtain ⟨bytes, hbytes⟩ : ∃ bytes, frame.bytes? = some bytes :=
      bytes?_isSome frame.function (hs.room frame hf)
    by_cases hwords : frame.words = 0
    · simp only [hwords, if_true]
      exact .pure hleft
    · simp only [hwords, if_false, hbytes]
      exact .pure hleft

/-- A body is lowered with the room that its locals need. -/
theorem lowerFunction_meets {head : Signature} {body : Emitter Session Unit} {env'' env₃ : Env}
    {words : Nat} (hfile : env.scopes = [])
    (h : env.Declares head.name (.function head.params.length true) env')
    (hparams : env'.openScope.DeclaresParams head.params env'')
    (hcount : head.params.length ≤ maxParams) (hwords : wordBytes * words ≤ maxLocalBytes)
    (hbody : ∀ {t : Session}, t.Ready env'' words → body.Meets t fun _ u => u.Ready env₃ 0)
    (hs : s.Ready env n) (m : Nat) :
    (lowerFunction pos head body).Meets s fun _ t => t.Ready env₃.closeAll m := by
  refine (declareFunction_meets hfile h hs).bind fun _ t ht => ?_
  have hinside : (enterFunction pos head >>= fun _ => body).Meets t fun _ u => u.Ready env₃ 0 :=
    (enterFunction_meets hparams hcount hwords ht).bind fun _ u hu => hbody hu
  refine .bind (hinside.behind fun u hu => ?_) fun _ _ hv => hv
  exact (leaveFunction_meets hu m).bind fun reserve v hv => .ok_bind rfl hv

theorem inScope_meets {x : Emitter Session Unit} {m : Nat} (hin : env.scopes ≠ [])
    (hdepth : env'.scopes.length = env.openScope.scopes.length)
    (hx : ∀ {t : Session}, t.Ready env.openScope n → x.Meets t fun _ u => u.Ready env' m)
    (hs : s.Ready env n) : (inScope x).Meets s fun _ t => t.Ready env'.closeScope m := by
  have hinside : s.frame ≠ none := mt hs.frame.1 hin
  have hopen : Session.Ready { s with symbols := s.symbols.openScope } env.openScope n :=
    ⟨by rw [SymbolTable.env_openScope, hs.env_eq], by simp [hinside, Env.openScope], hs.room⟩
  refine .ok_bind rfl ?_
  rw [if_pos (Option.isSome_iff_ne_none.2 hinside)]
  refine .ok_bind rfl ((hx hopen).bind fun _ t ht => ?_)
  -- both the scope that is closed and one outside of it are open
  have hlength : 2 ≤ env'.scopes.length := by
    have hpos := List.length_pos_iff.2 hin
    simp only [Env.openScope, List.length_cons] at hdepth
    omega
  have hclosed : env'.closeScope.scopes ≠ [] := by
    rw [← List.length_pos_iff, Env.closeScope, List.length_tail]
    omega
  have hframe : t.frame ≠ none := by
    rw [Ne, ht.frame, ← List.length_eq_zero_iff]
    omega
  exact ⟨by rw [SymbolTable.env_closeScope, ht.env_eq], by simp [hframe, hclosed], ht.room⟩

theorem branch_meets {cond : Expr} {ok otherwise : String} (h : cond.IsWellFormed env)
    (hs : s.Ready env n) : (branch cond ok otherwise).Meets s fun _ t => t.Ready env n := by
  refine (evaluate_meets h hs).bind fun r t ht => .ok_bind rfl ?_
  exact (release_meets r ht).bind fun _ _ hu => .ok_bind rfl hu

theorem loopTest_meets {done : String} {cond : Option Expr} (h : ∀ x ∈ cond, x.IsWellFormed env)
    (hs : s.Ready env n) : (loopTest done cond).Meets s fun _ t => t.Ready env n := by
  cases cond with
  | none => exact .pure hs
  | some cond => exact (newLabel_meets hs).bind fun _ _ ht => branch_meets (h cond rfl) ht

theorem lowerLoop_meets {cond step : Option Expr} {body : Emitter Session Unit} {m : Nat}
    (hcond : ∀ x ∈ cond, x.IsWellFormed env)
    (hbody : ∀ {t : Session}, t.Ready env n → body.Meets t fun _ u => u.Ready env' m)
    (hstep : ∀ x ∈ step, x.IsWellFormed env') (hs : s.Ready env n) :
    (lowerLoop cond step body).Meets s fun _ t => t.Ready env' m := by
  refine (newLabel_meets hs).bind fun top t ht => ?_
  refine (newLabel_meets ht).bind fun done u hu => .ok_bind rfl ?_
  refine (loopTest_meets hcond hu).bind fun _ v hv => (hbody hv).bind fun _ w hw => ?_
  refine (evaluateOption_meets hstep hw).bind fun _ x hx => ?_
  exact .ok_bind rfl hx

theorem lowerReturn_meets {value : Option Expr} (hin : env.scopes ≠ [])
    (h : ∀ x ∈ value, x.IsWellFormed env) (hs : s.Ready env n) :
    (lowerReturn pos value).Meets s fun _ t => t.Ready env n := by
  obtain ⟨frame, hf⟩ := Option.ne_none_iff_exists'.1 (mt hs.frame.1 hin)
  refine .ok_bind rfl ?_
  rw [hf]
  cases value with
  | none => exact hs
  | some e =>
    refine (evaluate_meets (h e rfl) hs).bind fun r t ht => .ok_bind rfl ?_
    exact (release_meets r ht).bind fun _ _ hu => hu

end Lowering

namespace Stmt
open Emitter

mutual

/-- A well-formed statement is lowered, unless registers run out. -/
theorem IsWellFormed.meets {stmt : Stmt} : ∀ {env env' : Env} {s : Session} {n : Nat},
    stmt.IsWellFormed .asRun env env' → (∀ decl ∈ stmt.decls, decl.InitsScalar) →
    s.Ready env (wordsOf stmt.decls + n) → (lowerStmt stmt).Meets s fun _ t => t.Ready env' n
  | _, _, _, n, .var hinit h, hscalar, hs => by
    simp only [Stmt.decls, List.forall_mem_singleton, wordsOf_cons, wordsOf_nil] at hscalar hs
    rw [lowerStmt]
    exact .visit (lowerVariable_meets hscalar hinit h hs)
  | _, _, _, n, .prototype hfile h, hscalar, hs => by
    rw [lowerStmt]
    exact .visit (declareFunction_meets hfile h (hs.ofFile hfile n))
  | _, _, _, n, .function hfile h hparams hbody hcount hwords, hscalar, hs => by
    rw [Stmt.decls, ← declsOfAll_items] at hscalar
    rw [← declsOfAll_items] at hwords
    rw [Meets, lowerStmt_function_apply]
    exact lowerFunction_meets hfile h hparams hcount hwords (fun ht => hbody.meets hscalar ht) hs n
  | _, _, _, n, .block hin h, hscalar, hs => by
    rw [Stmt.decls] at hscalar hs
    rw [lowerStmt]
    exact .visit (inScope_meets hin h.length_scopes (fun ht => h.meets hscalar ht) hs)
  | _, _, s, n, .fileBlock hfile h, hscalar, hs => by
    rw [Stmt.decls] at hscalar hs
    rw [lowerStmt]
    refine .visit (.ok_bind rfl ?_)
    rw [hs.frame.2 hfile]
    exact h.meets hscalar hs
  | _, _, _, n, .expr h, hscalar, hs => by
    rw [lowerStmt]
    exact .visit (evaluateOnly_meets h (by simpa [Stmt.decls] using hs))
  | _, _, _, n, .ifThen hcond hyes, hscalar, hs => by
    rw [Stmt.decls] at hscalar hs
    rw [lowerStmt]
    refine .visit ((newLabel_meets hs).bind fun ok t ht => ?_)
    refine (newLabel_meets ht).bind fun done u hu => ?_
    refine (branch_meets hcond hu).bind fun _ v hv => ?_
    exact (hyes.meets hscalar hv).bind fun _ _ hw => hw
  | _, _, _, n, .ifElse hcond hyes hno, hscalar, hs => by
    rw [Stmt.decls, List.forall_mem_append] at hscalar
    rw [Stmt.decls, wordsOf_append, Nat.add_assoc] at hs
    rw [lowerStmt]
    refine .visit ((newLabel_meets hs).bind fun ok t ht => ?_)
    refine (newLabel_meets ht).bind fun otherwise u hu => ?_
    refine (newLabel_meets hu).bind fun done v hv => ?_
    refine (branch_meets hcond hv).bind fun _ w hw => ?_
    refine (hyes.meets hscalar.1 hw).bind fun _ x hx => .ok_bind rfl (.ok_bind rfl ?_)
    exact (hno.meets hscalar.2 hx).bind fun _ _ hy => hy
  | _, _, _, n, .whileLoop hcond hbody, hscalar, hs => by
    rw [Stmt.decls] at hscalar hs
    rw [lowerStmt]
    refine .visit (lowerLoop_meets (by simpa using hcond) (fun ht => ?_) (by simp) hs)
    exact hbody.meets hscalar ht
  | _, _, _, n, .forLoop hinit hcond hbody hstep, hscalar, hs => by
    rw [Stmt.decls] at hscalar hs
    rw [lowerStmt]
    refine .visit ((evaluateOption_meets hinit hs).bind fun _ t ht => ?_)
    exact lowerLoop_meets hcond (fun hu => hbody.meets hscalar hu) hstep ht
  | _, _, _, n, .ret hin hvalue, hscalar, hs => by
    rw [lowerStmt]
    exact .visit (lowerReturn_meets hin hvalue (by simpa [Stmt.decls] using hs))

/-- Well-formed statements are lowered one after the other, unless registers run out. -/
theorem AreWellFormed.meets {items : List Stmt} : ∀ {env env' : Env} {s : Session} {n : Nat},
    AreWellFormed .asRun env items env' → (∀ decl ∈ declsOfAll items, decl.InitsScalar) →
    s.Ready env (wordsOf (declsOfAll items) + n) →
    (lowerItems items).Meets s fun _ t => t.Ready env' n
  | _, _, _, n, .nil _, hscalar, hs => by
    rw [lowerItems]
    exact .pure (by simpa [declsOfAll] using hs)
  | _, _, _, n, .cons h hs, hscalar, hready => by
    rw [declsOfAll, List.forall_mem_append] at hscalar
    rw [declsOfAll, wordsOf_append, Nat.add_assoc] at hready
    rw [lowerItems]
    exact (h.meets hscalar.1 hready).bind fun _ _ ht => hs.meets hscalar.2 ht

end

end Stmt

end WordC
