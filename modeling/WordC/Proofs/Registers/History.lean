import WordC.Lowering.Stmt

/-!
# Histories of code generation

A run of an emitter gives the lines and the state at its end, but not which registers were in use
when a line was emitted, and nothing at all if it fails. `Emitter.record` is a second reading of the
same steps, which keeps a history of what has happened, with the registers in use at every moment of
it. The first reading is what is left without the history (`Emitter.run_eq_emission`).

* `Records P x`: whatever happens in a run of `x` has the property `P`. In a run of a `Silent x`
  nothing happens but changes of the state.
* `Sound pool before x post`: in a run of `x` from the registers `before`, every moment is sound
  (`Moment.IsSound`), and if the run succeeds, the value and the registers in use satisfy `post`.
* `Covers x stmts`: in a run of `x` that succeeds, all these statements begin and end.

All three have a rule for every way of putting emitters together.
-/

namespace WordC

/-! ### What instructions read and write -/

/-- The registers whose words tell the address. -/
def Address.reads : Address → List Register
  | .frame _ => [.sf]
  | .register r => [r]
  | .label _ => []

namespace Operand

/-- The registers whose words tell the value. -/
def reads : Operand → List Register
  | .register r => [r]
  | .immediate _ | .label _ => []
  | .memory address => address.reads

/-- The registers whose words are needed to store something there. -/
def targetReads : Operand → List Register
  | .memory address => address.reads
  | .register _ | .immediate _ | .label _ => []

/-- The registers that change when something is stored there. -/
def targetWrites : Operand → List Register
  | .register r => [r]
  | .immediate _ | .label _ | .memory _ => []

end Operand

namespace Instruction

/-- The registers that an instruction reads. -/
def reads : Instruction → List Register
  | .push source => [source, .sp]
  | .pop _ => [.sp]
  | .mov target source => target.targetReads ++ source.reads
  | .add target source | .sub target source => target :: source.reads
  | .mul target source | .div target source => [target, source]
  | .cmp left right => [left, right]
  | .flg _ _ => []
  | .call target => [target, .sp]
  | .jmp _ => []
  | .jnz source _ => [source]
  | .ret => [.sp]

/-- The registers that an instruction writes. -/
def writes : Instruction → List Register
  | .push _ => [.sp]
  | .pop target => [.sp, target]
  | .mov target _ => target.targetWrites
  | .add target _ | .sub target _ | .mul target _ | .div target _ | .flg target _ => [target]
  | .cmp _ _ | .jmp _ | .jnz _ _ => []
  | .call _ | .ret => [.sp]

end Instruction

namespace RegisterPool

/-- What code may read: the special registers and the registers in use. -/
def IsReadable (pool : RegisterPool) (r : Register) : Prop :=
  r = .sf ∨ r = .sp ∨ r = .rv ∨ r ∈ pool.live

variable {pool : RegisterPool}

@[simp] theorem isReadable_sf : pool.IsReadable .sf := .inl rfl

@[simp] theorem isReadable_sp : pool.IsReadable .sp := .inr (.inl rfl)

@[simp] theorem isReadable_rv : pool.IsReadable .rv := .inr (.inr (.inl rfl))

theorem isReadable_of_mem_live {r : Register} (h : r ∈ pool.live) : pool.IsReadable r :=
  .inr (.inr (.inr h))

end RegisterPool

/-! ### Histories -/

/-- What may happen: a line is emitted, or a statement begins or ends. -/
inductive Event where
  | line (line : Line)
  | enter (stmt : Stmt)
  | leave (stmt : Stmt)

/-- An event, with the registers in use when it happens. -/
structure Moment where
  pool : RegisterPool
  event : Event

namespace Moment

/-- An instruction reads special registers and registers in use only, and no register is in use
where a statement begins or ends. -/
def IsSound (m : Moment) : Prop :=
  match m.event with
  | .line (.instruction i) => ∀ r ∈ i.reads, m.pool.IsReadable r
  | .line _ => True
  | .enter _ | .leave _ => m.pool = .empty

/-- The line that is emitted. -/
def line? (m : Moment) : Option Line :=
  match m.event with
  | .line line => some line
  | .enter _ | .leave _ => none

variable (pool : RegisterPool)

@[simp] theorem line?_line (line : Line) : Moment.line? ⟨pool, .line line⟩ = some line := rfl

@[simp] theorem line?_enter (stmt : Stmt) : Moment.line? ⟨pool, .enter stmt⟩ = none := rfl

@[simp] theorem line?_leave (stmt : Stmt) : Moment.line? ⟨pool, .leave stmt⟩ = none := rfl

end Moment

/-- The history of a run, and what the run gives if it succeeds. -/
structure Recording (σ α : Type) where
  history : List Moment
  outcome : Except Diagnostic (α × σ)

namespace Recording

variable {σ α β : Type}

/-- The lines that were emitted. -/
def lines (out : Recording σ α) : List Line := out.history.filterMap Moment.line?

/-- The recording without its history, of which the lines stay. -/
def emission (out : Recording σ α) : Except Diagnostic (Emission σ α) :=
  out.outcome.map fun (a, s) => ⟨a, out.lines, s⟩

/-- A single moment. -/
def mark (m : Moment) (s : σ) : Recording σ Unit := ⟨[m], .ok ((), s)⟩

/-- Go on behind a recording. -/
def andThen (out : Recording σ α) (next : α → σ → Recording σ β) : Recording σ β :=
  match out.outcome with
  | .error d => ⟨out.history, .error d⟩
  | .ok (a, s) => ⟨out.history ++ (next a s).history, (next a s).outcome⟩

/-- Go on behind a recording, but put what happens then in front of it. -/
def insert (out : Recording σ Unit) (next : σ → Recording σ Unit) : Recording σ Unit :=
  match out.outcome with
  | .error d => ⟨out.history, .error d⟩
  | .ok (_, s) => ⟨(next s).history ++ out.history, (next s).outcome⟩

theorem emission_andThen (out : Recording σ α) (next : α → σ → Recording σ β) :
    (out.andThen next).emission = (do
      let first ← out.emission
      let second ← (next first.value first.state).emission
      pure ⟨second.value, first.lines ++ second.lines, second.state⟩) := by
  obtain ⟨history, outcome⟩ := out
  cases outcome with
  | error d => rfl
  | ok first =>
    cases h : (next first.1 first.2).outcome <;>
      simp [andThen, emission, lines, Except.map, bind, Except.bind, pure, Except.pure, h]

theorem emission_insert (out : Recording σ Unit) (next : σ → Recording σ Unit) :
    (out.insert next).emission = (do
      let back ← out.emission
      let front ← (next back.state).emission
      pure ⟨(), front.lines ++ back.lines, front.state⟩) := by
  obtain ⟨history, outcome⟩ := out
  cases outcome with
  | error d => rfl
  | ok back =>
    cases h : (next back.2).outcome <;>
      simp [insert, emission, lines, Except.map, bind, Except.bind, pure, Except.pure, h]

end Recording

/-- The registers in use in a session. -/
def Session.pool (s : Session) : RegisterPool := s.scratch.pool

namespace Emitter

variable {σ τ α β : Type}

/-- Run an emitter and keep the history; `pool` gives the registers in use. -/
protected def record : {σ α : Type} → Emitter σ α → (σ → RegisterPool) → σ → Recording σ α
  | _, _, change f, _, s => ⟨[], f s⟩
  | _, _, emitLines lines, pool, s => ⟨lines.map fun line => ⟨pool s, .line line⟩, .ok ((), s)⟩
  | _, _, .bind x f, pool, s => (x.record pool s).andThen fun a => (f a).record pool
  | _, _, visit stmt x, pool, s =>
    (Recording.mark ⟨pool s, .enter stmt⟩ s).andThen fun _ s => (x.record pool s).andThen fun _ s =>
      .mark ⟨pool s, .leave stmt⟩ s
  | _, _, behind x y, pool, s => (x.record pool s).insert (y.record pool)
  | _, _, focus part put x, pool, t =>
    let out := x.record (fun s => pool (put s t)) (part t)
    ⟨out.history, out.outcome.map fun (a, s) => (a, put s t)⟩

/-- Without the history, the two readings are the same. -/
theorem run_eq_emission (x : Emitter σ α) (pool : σ → RegisterPool) (s : σ) :
    x s = (x.record pool s).emission := by
  induction x with
  | change f =>
    rw [change_apply]
    cases h : f s <;> simp [Emitter.record, Recording.emission, Recording.lines, Except.map, h]
  | emitLines lines =>
    simp [emitLines_apply, Emitter.record, Recording.emission, Recording.lines, Except.map,
      List.filterMap_map, Function.comp_def]
  | bind x f ihx ihf =>
    rw [Emitter.run, Emitter.record, Recording.emission_andThen, ihx pool]
    simp only [ihf _ pool]
  | visit stmt x ih =>
    -- the begin and the end of the statement are no lines
    rw [visit_apply, ih pool, Emitter.record]
    simp only [Recording.mark, Recording.andThen]
    obtain ⟨history, outcome⟩ := x.record pool s
    cases outcome <;>
      simp [Recording.emission, Recording.lines, Except.map, List.filterMap_cons]
  | behind x y ihx ihy =>
    rw [Emitter.run, Emitter.record, Recording.emission_insert, ihx pool]
    simp only [ihy pool]
  | focus part put x ih =>
    rw [focus_apply, ih (fun s' => pool (put s' s)), Emitter.record]
    obtain ⟨history, outcome⟩ := x.record (fun s' => pool (put s' s)) (part s)
    cases outcome <;> rfl

variable {pool : σ → RegisterPool} {x : Emitter σ α}

theorem record_bind (x : Emitter σ α) (f : α → Emitter σ β) (s : σ) :
    (x >>= f).record pool s = (x.record pool s).andThen fun a => (f a).record pool := rfl

theorem run_of_outcome {s s' : σ} {a : α} (h : (x.record pool s).outcome = .ok (a, s')) :
    x s = .ok ⟨a, (x.record pool s).lines, s'⟩ := by
  rw [x.run_eq_emission pool, Recording.emission, h]
  rfl

/-- What the first reading gives has been recorded. -/
theorem exists_outcome {s : σ} {em : Emission σ α} (h : x s = .ok em) (pool : σ → RegisterPool) :
    ∃ out, (x.record pool s).outcome = .ok out ∧ em = ⟨out.1, (x.record pool s).lines, out.2⟩ := by
  rw [x.run_eq_emission pool, Recording.emission] at h
  cases hx : (x.record pool s).outcome with
  | ok out =>
    rw [hx] at h
    exact ⟨out, rfl, (Except.ok.inj h).symm⟩
  | error d =>
    rw [hx] at h
    cases h

section Parts

variable {s : σ}

theorem record_bind_ok {f : α → Emitter σ β} {out : β × σ}
    (h : ((x >>= f).record pool s).outcome = .ok out) :
    ∃ first, (x.record pool s).outcome = .ok first ∧
      ((f first.1).record pool first.2).outcome = .ok out ∧
      ((x >>= f).record pool s).history =
        (x.record pool s).history ++ ((f first.1).record pool first.2).history := by
  rw [record_bind, Recording.andThen] at h ⊢
  cases hx : (x.record pool s).outcome with
  | error d =>
    rw [hx] at h
    cases h
  | ok first =>
    rw [hx] at h
    exact ⟨first, rfl, h, rfl⟩

theorem record_visit_ok {stmt : Stmt} {x : Emitter σ Unit} {out : Unit × σ}
    (h : ((visit stmt x).record pool s).outcome = .ok out) :
    ∃ first, (x.record pool s).outcome = .ok first ∧
      ((visit stmt x).record pool s).history = [⟨pool s, .enter stmt⟩] ++
        ((x.record pool s).history ++ [⟨pool first.2, .leave stmt⟩]) := by
  rw [Emitter.record] at h ⊢
  simp only [Recording.mark, Recording.andThen] at h ⊢
  cases hx : (x.record pool s).outcome with
  | error d => simp [hx] at h
  | ok first => exact ⟨first, rfl, rfl⟩

theorem record_behind_ok {x y : Emitter σ Unit} {out : Unit × σ}
    (h : ((behind x y).record pool s).outcome = .ok out) :
    ∃ first, (x.record pool s).outcome = .ok first ∧ (y.record pool first.2).outcome = .ok out ∧
      ((behind x y).record pool s).history =
        (y.record pool first.2).history ++ (x.record pool s).history := by
  rw [Emitter.record, Recording.insert] at h ⊢
  cases hx : (x.record pool s).outcome with
  | error d =>
    rw [hx] at h
    cases h
  | ok first =>
    rw [hx] at h
    exact ⟨first, rfl, h, rfl⟩

end Parts

/-! ### What is recorded -/

/-- Whatever happens in a run has the property. -/
def Records (P : Moment → Prop) (x : Emitter σ α) : Prop :=
  ∀ pool s, ∀ m ∈ (x.record pool s).history, P m

/-- Nothing happens but changes of the state. -/
abbrev Silent (x : Emitter σ α) : Prop := Records (fun _ => False) x

namespace Records

variable {P : Moment → Prop}

theorem of_silent (h : Silent x) : Records P x := fun pool s m hm => (h pool s m hm).elim

theorem change (f : σ → Except Diagnostic (α × σ)) : Records P (change f) :=
  fun _ _ _ hm => absurd hm List.not_mem_nil

theorem pure (a : α) : Records P (Pure.pure a : Emitter σ α) := change _

theorem bind {f : α → Emitter σ β} (h : Records P x) (hf : ∀ a, Records P (f a)) :
    Records P (x >>= f) := by
  intro pool s
  rw [record_bind, Recording.andThen]
  cases (x.record pool s).outcome with
  | error d => exact h pool s
  | ok out => exact List.forall_mem_append.2 ⟨h pool s, hf out.1 pool out.2⟩

theorem ofExcept (pos : Position) (result : Except Cause α) :
    Records P (ofExcept pos result : Emitter σ α) := by
  cases result <;> exact change _

theorem ite {c : Prop} [Decidable c] {x' : Emitter σ α} (h : Records P x) (h' : Records P x') :
    Records P (if c then x else x') := by
  split
  · exact h
  · exact h'

theorem focus {part : τ → σ} {put : σ → τ → τ} (h : Records P x) : Records P (focus part put x) :=
  fun pool t => h (fun s => pool (put s t)) (part t)

end Records

theorem Silent.history_eq_nil (h : Silent x) (pool : σ → RegisterPool) (s : σ) :
    (x.record pool s).history = [] :=
  List.eq_nil_iff_forall_not_mem.2 (h pool s)

/-! ### Sound histories -/

/-- From a pool, every moment is sound, and the value and the pool that is left satisfy `post`. -/
def Sound (pool : σ → RegisterPool) (before : RegisterPool) (x : Emitter σ α)
    (post : α → RegisterPool → Prop) : Prop :=
  ∀ s, pool s = before → (∀ m ∈ (x.record pool s).history, m.IsSound) ∧
    ∀ a s', (x.record pool s).outcome = .ok (a, s') → post a (pool s')

namespace Sound

variable {p p' : RegisterPool} {post : α → RegisterPool → Prop}

theorem bind {f : α → Emitter σ β} {post' : β → RegisterPool → Prop} (h : Sound pool p x post)
    (hf : ∀ a q, post a q → Sound pool q (f a) post') : Sound pool p (x >>= f) post' := by
  intro s hs
  obtain ⟨hhistory, hpost⟩ := h s hs
  rw [record_bind, Recording.andThen]
  cases hx : (x.record pool s).outcome with
  | error d => exact ⟨hhistory, nofun⟩
  | ok first =>
    obtain ⟨a, s'⟩ := first
    obtain ⟨hhistory', hpost'⟩ := hf a _ (hpost a s' hx) s' rfl
    exact ⟨List.forall_mem_append.2 ⟨hhistory, hhistory'⟩, hpost'⟩

/-- A sequence for whose second part only the pool matters. -/
theorem andThen {f : α → Emitter σ β} {post' : β → RegisterPool → Prop}
    (h : Sound pool p x fun _ q => q = p') (hf : ∀ a, Sound pool p' (f a) post') :
    Sound pool p (x >>= f) post' :=
  h.bind fun a _ hq => hq ▸ hf a

theorem ite {c : Prop} [Decidable c] {x' : Emitter σ α} (h : Sound pool p x post)
    (h' : Sound pool p x' post) : Sound pool p (if c then x else x') post := by
  split
  · exact h
  · exact h'

theorem mono {post' : α → RegisterPool → Prop} (h : Sound pool p x post)
    (hpost : ∀ a q, post a q → post' a q) : Sound pool p x post' := by
  intro s hs
  obtain ⟨hhistory, hout⟩ := h s hs
  exact ⟨hhistory, fun a s' hrun => hpost _ _ (hout a s' hrun)⟩

/-- What the emitter gives is known from its runs. -/
theorem of_run {post' : α → RegisterPool → Prop} (h : Sound pool p x post)
    (hx : ∀ s em, pool s = p → x s = .ok em → post' em.value (pool em.state)) :
    Sound pool p x post' :=
  fun s hs => ⟨(h s hs).1, fun _ _ hrun => hx s _ hs (run_of_outcome hrun)⟩

/-- Steps that emit nothing. -/
theorem silent (h : Silent x)
    (hx : ∀ s em, pool s = p → x s = .ok em → post em.value (pool em.state)) :
    Sound pool p x post := by
  intro s hs
  rw [h.history_eq_nil pool s]
  exact ⟨fun m hm => absurd hm List.not_mem_nil, fun _ _ hrun => hx s _ hs (run_of_outcome hrun)⟩

theorem pure {a : α} (h : post a p) : Sound pool p (Pure.pure a : Emitter σ α) post := by
  refine silent (.pure a) ?_
  rintro s em rfl hem
  cases hem
  exact h

theorem fail (pos : Position) (cause : Cause) : Sound pool p (fail pos cause : Emitter σ α) post :=
  silent (.change _) fun _ _ _ h => nomatch h

/-- Instructions that read special registers and registers in use only. -/
theorem emitCode {code : List Instruction} (h : ∀ i ∈ code, ∀ r ∈ i.reads, p.IsReadable r) :
    Sound pool p (Lowering.emitCode code) fun _ q => q = p := by
  rintro s rfl
  refine ⟨fun m hm => ?_, fun a s' hrun => ?_⟩
  · obtain ⟨line, hline, rfl⟩ := List.mem_map.1 hm
    obtain ⟨i, hi, rfl⟩ := List.mem_map.1 hline
    exact h i hi
  · cases hrun
    rfl

theorem emit {i : Instruction} (h : ∀ r ∈ i.reads, p.IsReadable r) :
    Sound pool p (emit i) fun _ q => q = p :=
  @emitCode σ pool p [i] (by simpa using h)

/-- A label is no instruction. -/
theorem emitLabel (name : String) : Sound pool p (emitLabel name) fun _ q => q = p := by
  rintro s rfl
  refine ⟨fun m hm => ?_, fun a s' hrun => ?_⟩
  · rw [List.mem_singleton.1 hm]
    trivial
  · cases hrun
    rfl

/-- A statement from the empty pool to the empty pool. -/
theorem visit {stmt : Stmt} {x : Emitter σ Unit} (h : Sound pool .empty x fun _ q => q = .empty) :
    Sound pool .empty (visit stmt x) fun _ q => q = .empty := by
  intro s hs
  obtain ⟨hhistory, hpost⟩ := h s hs
  rw [Emitter.record]
  simp only [Recording.mark, Recording.andThen]
  cases hx : (x.record pool s).outcome with
  | error d => simpa [hs, Moment.IsSound] using hhistory
  | ok out =>
    have hout := hpost _ _ hx
    simpa [hs, hout, Moment.IsSound, or_imp, forall_and] using hhistory

theorem behind {x y : Emitter σ Unit} {post : Unit → RegisterPool → Prop}
    (h : Sound pool p x fun _ q => q = p') (h' : Sound pool p' y post) :
    Sound pool p (behind x y) post := by
  intro s hs
  obtain ⟨hhistory, hpool⟩ := h s hs
  rw [Emitter.record, Recording.insert]
  cases hx : (x.record pool s).outcome with
  | error d => exact ⟨hhistory, nofun⟩
  | ok first =>
    obtain ⟨hhistory', hpost⟩ := h' first.2 (hpool _ _ hx)
    exact ⟨List.forall_mem_append.2 ⟨hhistory', hhistory⟩, hpost⟩

theorem onScratch {x : Emitter Scratch α} (h : Sound Scratch.pool p x post) :
    Sound Session.pool p (Lowering.onScratch x) post := by
  intro s hs
  obtain ⟨hhistory, hpost⟩ := h s.scratch hs
  refine ⟨hhistory, fun a s' hrun => ?_⟩
  change (x.record Scratch.pool s.scratch).outcome.map _ = _ at hrun
  cases hx : (x.record Scratch.pool s.scratch).outcome with
  | error d =>
    rw [hx] at hrun
    cases hrun
  | ok out =>
    rw [hx] at hrun
    cases hrun
    exact hpost _ _ hx

end Sound

/-! ### The statements of a history -/

/-- All these statements begin and end in a run that succeeds. -/
def Covers (x : Emitter σ α) (stmts : List Stmt) : Prop :=
  ∀ pool s out, (x.record pool s).outcome = .ok out → ∀ stmt ∈ stmts,
    .enter stmt ∈ (x.record pool s).history.map Moment.event ∧
    .leave stmt ∈ (x.record pool s).history.map Moment.event

namespace Covers

variable {stmts stmts' : List Stmt}

theorem nil : Covers x [] := fun _ _ _ _ => nofun

theorem bind {f : α → Emitter σ β} (h : Covers x stmts) (hf : ∀ a, Covers (f a) stmts') :
    Covers (x >>= f) (stmts ++ stmts') := by
  intro pool s out hrun stmt hstmt
  obtain ⟨first, hx, hout, hhistory⟩ := record_bind_ok hrun
  rw [hhistory]
  simp only [List.map_append, List.mem_append]
  rcases List.mem_append.1 hstmt with hstmt | hstmt
  · exact (h pool s _ hx stmt hstmt).imp .inl .inl
  · exact (hf _ pool _ out hout stmt hstmt).imp .inr .inr

/-- The statements are in the second part. -/
theorem andThen {f : α → Emitter σ β} (hf : ∀ a, Covers (f a) stmts) : Covers (x >>= f) stmts :=
  nil.bind hf

/-- The statements are in the first part. -/
theorem before {f : α → Emitter σ β} (h : Covers x stmts) : Covers (x >>= f) stmts := by
  have hboth : Covers (x >>= f) (stmts ++ []) := h.bind fun _ => nil
  rwa [List.append_nil] at hboth

theorem ite {c : Prop} [Decidable c] {x' : Emitter σ α} (h : Covers x stmts)
    (h' : Covers x' stmts) : Covers (if c then x else x') stmts := by
  split
  · exact h
  · exact h'

theorem visit {stmt : Stmt} {x : Emitter σ Unit} (h : Covers x stmts) :
    Covers (visit stmt x) (stmts ++ [stmt]) := by
  intro pool s out hrun stmt' hstmt
  obtain ⟨first, hx, hhistory⟩ := record_visit_ok hrun
  rw [hhistory]
  simp only [List.map_append, List.mem_append]
  rcases List.mem_append.1 hstmt with hstmt | hstmt
  · exact (h pool s _ hx stmt' hstmt).imp (fun h => .inr (.inl h)) (fun h => .inr (.inl h))
  · rw [List.mem_singleton.1 hstmt]
    simp

theorem behind {x y : Emitter σ Unit} (h : Covers x stmts) : Covers (behind x y) stmts := by
  intro pool s out hrun stmt hstmt
  obtain ⟨first, hx, -, hhistory⟩ := record_behind_ok hrun
  rw [hhistory]
  simp only [List.map_append, List.mem_append]
  exact (h pool s _ hx stmt hstmt).imp .inr .inr

end Covers

end Emitter

end WordC
