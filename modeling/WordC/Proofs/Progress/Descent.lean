import WordC.Proofs.Progress.Script
import Mathlib.Data.List.Chain

/-!
# Runs of scripts

A run plays a script on a token list, from one cursor to another. What a run is has nothing to do
with an order of routines: a call runs the script of the routine at the cursor where it is made. So
a run is a finite tree, and a script that goes on for ever has none.

The routines of a `Descent` are ranked, and their scripts are guarded by the ranks. A call is then
at a later cursor or of a lower rank (`Enters.decreases`), which is a descent through the tokens
that are left and, in front of the same token, through the levels (`depth`). It follows that

* every routine has a run from every cursor (`exists_runs`);
* a run goes forward, over the tokens it takes (`Script.Runs.le_stop`, `Script.Runs.taken_eq`);
* calls within each other are no more than the levels in front of the same token
  (`length_le_levels`), and altogether no more than that for each token (`length_le_depth`).
-/

namespace WordC

variable {R : Type} {Value : R → Type} {α : Type}

namespace Script

/-- `Runs script tokens s cursor taken outcome stop`: played from the cursor, `s` takes the tokens
at the cursors `taken`, and ends with the outcome at `stop`. -/
inductive Runs (script : (r : R) → Script Value (Value r)) (tokens : List Token) :
    {α : Type} → Script Value α → Nat → List Nat → Except Failure α → Nat → Prop
  | done {α : Type} {a : α} {cursor : Nat} : Runs script tokens (.done a) cursor [] (.ok a) cursor
  | fail {α : Type} {failure : Failure} {cursor : Nat} :
    Runs script tokens (.fail failure : Script Value α) cursor [] (.error failure) cursor
  | look {α : Type} {go : Option Token → Option Token → Script Value α} {cursor stop : Nat}
    {taken : List Nat} {outcome : Except Failure α}
    (h : Runs script tokens (go tokens[cursor]? tokens[cursor + 1]?) cursor taken outcome stop) :
    Runs script tokens (.look go) cursor taken outcome stop
  | take {α : Type} {wanted : Token → Bool} {go : Option Token → Script Value α} {t : Token}
    {cursor stop : Nat} {taken : List Nat} {outcome : Except Failure α}
    (ht : tokens[cursor]? = some t) (hwanted : wanted t = true)
    (h : Runs script tokens (go (some t)) (cursor + 1) taken outcome stop) :
    Runs script tokens (.take wanted go) cursor (cursor :: taken) outcome stop
  | leave {α : Type} {wanted : Token → Bool} {go : Option Token → Script Value α}
    {cursor stop : Nat} {taken : List Nat} {outcome : Except Failure α}
    (hwanted : tokens[cursor]?.any wanted = false)
    (h : Runs script tokens (go none) cursor taken outcome stop) :
    Runs script tokens (.take wanted go) cursor taken outcome stop
  | call {α : Type} {r : R} {go : Value r → Script Value α} {v : Value r}
    {cursor mid stop : Nat} {taken taken' : List Nat} {outcome : Except Failure α}
    (hr : Runs script tokens (script r) cursor taken (.ok v) mid)
    (h : Runs script tokens (go v) mid taken' outcome stop) :
    Runs script tokens (.call r go) cursor (taken ++ taken') outcome stop
  | callFails {α : Type} {r : R} {go : Value r → Script Value α} {failure : Failure}
    {cursor stop : Nat} {taken : List Nat}
    (hr : Runs script tokens (script r) cursor taken (.error failure) stop) :
    Runs script tokens (.call r go) cursor taken (.error failure) stop

/-- `Calls script tokens s cursor r place`: played from the cursor, `s` calls the routine `r` with
the cursor at `place`. -/
inductive Calls (script : (r : R) → Script Value (Value r)) (tokens : List Token) :
    {α : Type} → Script Value α → Nat → R → Nat → Prop
  | here {α : Type} {r : R} {go : Value r → Script Value α} {cursor : Nat} :
    Calls script tokens (.call r go) cursor r cursor
  | look {α : Type} {go : Option Token → Option Token → Script Value α} {cursor place : Nat} {r : R}
    (h : Calls script tokens (go tokens[cursor]? tokens[cursor + 1]?) cursor r place) :
    Calls script tokens (.look go) cursor r place
  | take {α : Type} {wanted : Token → Bool} {go : Option Token → Script Value α} {t : Token}
    {cursor place : Nat} {r : R} (ht : tokens[cursor]? = some t) (hwanted : wanted t = true)
    (h : Calls script tokens (go (some t)) (cursor + 1) r place) :
    Calls script tokens (.take wanted go) cursor r place
  | leave {α : Type} {wanted : Token → Bool} {go : Option Token → Script Value α}
    {cursor place : Nat} {r : R} (hwanted : tokens[cursor]?.any wanted = false)
    (h : Calls script tokens (go none) cursor r place) :
    Calls script tokens (.take wanted go) cursor r place
  | later {α : Type} {r r' : R} {go : Value r → Script Value α} {v : Value r}
    {cursor mid place : Nat} {taken : List Nat}
    (hr : Runs script tokens (script r) cursor taken (.ok v) mid)
    (h : Calls script tokens (go v) mid r' place) :
    Calls script tokens (.call r go) cursor r' place

namespace Runs

variable {script : (r : R) → Script Value (Value r)} {tokens : List Token} {s : Script Value α}
  {cursor stop : Nat} {taken : List Nat} {outcome : Except Failure α}

/-- The cursor does not go back, nor behind the last token. -/
theorem le_stop (h : Runs script tokens s cursor taken outcome stop) :
    cursor ≤ stop ∧ stop ≤ max cursor tokens.length := by
  induction h with
  | done | fail => omega
  | look _ ih | leave _ _ ih => exact ih
  | take ht _ _ ih =>
    have hlt := (List.getElem?_eq_some_iff.1 ht).1
    omega
  | call _ _ ihr ih => omega
  | callFails _ ihr => exact ihr

/-- The tokens are taken one after the other. -/
theorem taken_eq (h : Runs script tokens s cursor taken outcome stop) :
    taken = List.range' cursor (stop - cursor) := by
  induction h with
  | done | fail => simp
  | look _ ih | leave _ _ ih => exact ih
  | take _ _ h ih =>
    have hle := h.le_stop.1
    rw [ih, ← List.range'_succ]
    congr 1
    omega
  | @call _ _ _ _ cursor mid stop _ _ _ hr h ihr ih =>
    have hle := hr.le_stop.1
    have hle' := h.le_stop.1
    obtain ⟨m, rfl⟩ := Nat.exists_eq_add_of_le hle
    obtain ⟨n, rfl⟩ := Nat.exists_eq_add_of_le hle'
    rw [ihr, ih, Nat.add_sub_cancel_left, Nat.add_sub_cancel_left, Nat.add_assoc,
      Nat.add_sub_cancel_left]
    exact List.range'_append_1
  | callFails _ ihr => exact ihr

/-- A run gives the reply of the parser on the tokens behind the cursor. -/
theorem parser_eq {answer : (r : R) → Parser (Value r)}
    (hscript : ∀ r, (script r).parser answer = answer r)
    (h : Runs script tokens s cursor taken outcome stop) :
    s.parser answer (tokens.drop cursor) = .ofOutcome (tokens.drop stop) outcome := by
  induction h with
  | done | fail => rfl
  | look _ ih =>
    rw [parser_look, List.head?_drop, List.getElem?_drop]
    exact ih
  | take ht hwanted _ ih =>
    obtain ⟨hlt, rfl⟩ := List.getElem?_eq_some_iff.1 ht
    rw [List.drop_eq_getElem_cons hlt, parser,
      Parser.bind_of_ok (Parser.accept_eq_ok_some_iff.2 ⟨rfl, hwanted⟩)]
    exact ih
  | leave hwanted _ ih =>
    rw [parser, Parser.bind_of_ok (Parser.accept_eq_ok_none_iff.2 ⟨rfl, by rwa [List.head?_drop]⟩)]
    exact ih
  | call _ _ ihr ih =>
    rw [hscript] at ihr
    rw [parser, Parser.bind_of_ok ihr]
    exact ih
  | callFails _ ihr =>
    rw [hscript] at ihr
    rw [parser, Parser.bind_apply, ihr]
    rfl

end Runs

end Script

/-! ### Descents -/

/-- Routines with scripts that spell their parsers out, each on its own rank. -/
structure Descent (Value : R → Type) extends Routines Value where
  script : (r : R) → Script Value (Value r)
  spells : ∀ r, (script r).Spells toRoutines (rank r) false (parser r) (takes r)

namespace Descent

open Script

variable {d : Descent Value} {tokens : List Token} {s : Script Value α} {start cursor stop : Nat}
  {taken : List Nat} {outcome : Except Failure α} {bound : Nat} {moved after : Bool}

/-- Where a guarded script ends with a value, it has taken a token if it says so. -/
theorem lt_stop_of_guarded (h : Runs d.script tokens s cursor taken outcome stop)
    (hs : s.Guarded d.toRoutines bound after moved) {a : α} (hok : outcome = .ok a)
    (hafter : after = true) : moved = true ∨ cursor < stop := by
  induction h generalizing bound after moved with
  | done => exact .inl (hs hafter)
  | fail => cases hok
  | look _ ih => exact ih (hs _ _) hok hafter
  | leave _ _ ih => exact ih hs.2 hok hafter
  | take _ _ h _ => exact .inr h.le_stop.1
  | @call _ r _ _ _ _ _ _ _ _ hr h ihr ih =>
    -- The token is taken before the call, within it, or behind it.
    have hle := hr.le_stop.1
    have hle' := h.le_stop.1
    rcases ih (hs.2 _) hok hafter with hmoved | hlt
    · rcases Bool.or_eq_true_iff.1 hmoved with hmoved | htakes
      · exact .inl hmoved
      · rcases ihr (d.spells r).guarded rfl htakes with hfalse | hlt
        · cases hfalse
        · omega
    · omega
  | callFails => cases hok

/-- A routine that takes a token leaves the cursor further on where it succeeds. -/
theorem lt_stop {r : R} {v : Value r}
    (h : Runs d.script tokens (d.script r) cursor taken (.ok v) stop)
    (htakes : d.takes r = true) : cursor < stop :=
  (lt_stop_of_guarded h (d.spells r).guarded rfl htakes).resolve_left Bool.false_ne_true

/-- A script that began at `start` is behind it once it has taken a token. -/
theorem start_lt_of_call {r : R} {v : Value r} {mid : Nat}
    (hr : Runs d.script tokens (d.script r) cursor taken (.ok v) mid) (hstart : start ≤ cursor)
    (hmoved : moved = true → start < cursor) (h : (moved || d.takes r) = true) : start < mid := by
  have hle := hr.le_stop.1
  rcases Bool.or_eq_true_iff.1 h with hmoved' | htakes
  · have hlt := hmoved hmoved'
    omega
  · have hlt := lt_stop hr htakes
    omega

/-- A guarded script runs to an end, if the routines do that it calls. -/
theorem exists_runs_of_guarded
    (hcalls : ∀ r place, start ≤ place → place ≤ tokens.length →
      (place = start → d.rank r < bound) →
      ∃ taken outcome stop, Runs d.script tokens (d.script r) place taken outcome stop)
    (hs : s.Guarded d.toRoutines bound after moved) (hstart : start ≤ cursor)
    (hcursor : cursor ≤ tokens.length) (hmoved : moved = true → start < cursor) :
    ∃ taken outcome stop, Runs d.script tokens s cursor taken outcome stop := by
  induction s generalizing cursor moved with
  | done a => exact ⟨_, _, _, .done⟩
  | fail failure => exact ⟨_, _, _, .fail⟩
  | look go ih =>
    obtain ⟨taken, outcome, stop, h⟩ := ih _ _ (hs _ _) hstart hcursor hmoved
    exact ⟨taken, outcome, stop, .look h⟩
  | take wanted go ih =>
    cases hwanted : tokens[cursor]?.any wanted with
    | false =>
      obtain ⟨taken, outcome, stop, h⟩ := ih _ hs.2 hstart hcursor hmoved
      exact ⟨taken, outcome, stop, .leave hwanted h⟩
    | true =>
      obtain ⟨t, ht, hwanted⟩ := (Option.any_eq_true ..).1 hwanted
      have hlt := (List.getElem?_eq_some_iff.1 ht).1
      obtain ⟨taken, outcome, stop, h⟩ := ih (some t) (hs.1 t) (Nat.le_succ_of_le hstart) hlt
        fun _ => Nat.lt_succ_of_le hstart
      exact ⟨cursor :: taken, outcome, stop, .take ht hwanted h⟩
  | call r go ih =>
    -- Where no token has been taken, the cursor is still at `start` and the guard gives the rank.
    have hrank : cursor = start → d.rank r < bound := by
      rintro rfl
      exact hs.1.resolve_left fun hm => Nat.lt_irrefl _ (hmoved hm)
    obtain ⟨taken, outcome, mid, hr⟩ := hcalls r cursor hstart hcursor hrank
    cases outcome with
    | error failure => exact ⟨taken, .error failure, mid, .callFails hr⟩
    | ok v =>
      have hle := hr.le_stop
      obtain ⟨taken', outcome, stop, h⟩ := ih v (hs.2 v) (by omega) (by omega)
        (start_lt_of_call hr hstart hmoved)
      exact ⟨taken ++ taken', outcome, stop, .call hr h⟩

/-- What is left of a descent at a call: the levels at every later cursor, and those below the
routine at this one. -/
def depth (d : Descent Value) (tokens : List Token) (r : R) (cursor : Nat) : Nat :=
  (tokens.length - cursor) * d.levels + d.rank r

theorem depth_lt {r r' : R} {place : Nat} (hplace : cursor ≤ place)
    (hlength : cursor < place → place ≤ tokens.length)
    (hrank : place = cursor → d.rank r' < d.rank r) :
    d.depth tokens r' place < d.depth tokens r cursor := by
  unfold depth
  rcases Nat.eq_or_lt_of_le hplace with rfl | hlt
  · have hlt := hrank rfl
    omega
  · have hle : tokens.length - place + 1 ≤ tokens.length - cursor := by
      have := hlength hlt
      omega
    have hlevels := d.rank_lt r'
    calc (tokens.length - place) * d.levels + d.rank r'
        < (tokens.length - place) * d.levels + d.levels := by omega
      _ = (tokens.length - place + 1) * d.levels := by rw [Nat.succ_mul]
      _ ≤ (tokens.length - cursor) * d.levels := Nat.mul_le_mul_right _ hle
      _ ≤ (tokens.length - cursor) * d.levels + d.rank r := Nat.le_add_right _ _

/-- Every routine runs to an end, from every cursor. -/
theorem exists_runs (d : Descent Value) (tokens : List Token) (r : R) (cursor : Nat)
    (hcursor : cursor ≤ tokens.length) :
    ∃ taken outcome stop, Runs d.script tokens (d.script r) cursor taken outcome stop := by
  induction hn : d.depth tokens r cursor using Nat.strongRecOn generalizing r cursor with
  | _ n ih =>
    subst hn
    refine exists_runs_of_guarded (fun r' place hle hplace hrank => ?_) (d.spells r).guarded
      (Nat.le_refl cursor) hcursor Bool.false_ne_true.elim
    exact ih _ (depth_lt hle (fun _ => hplace) hrank) r' place hplace rfl

/-! ### Calls -/

/-- The routine `caller.1`, run from the cursor `caller.2`, calls `callee.1` at `callee.2`. -/
def Enters (d : Descent Value) (tokens : List Token) (caller callee : R × Nat) : Prop :=
  Calls d.script tokens (d.script caller.1) caller.2 callee.1 callee.2

/-- A call is not in front of the cursor, nor behind the last token. -/
theorem le_place {r : R} {place : Nat} (h : Calls d.script tokens s cursor r place) :
    cursor ≤ place ∧ place ≤ max cursor tokens.length := by
  induction h with
  | here => omega
  | look _ ih | leave _ _ ih => exact ih
  | take ht _ _ ih =>
    have hlt := (List.getElem?_eq_some_iff.1 ht).1
    omega
  | later hr _ ih =>
    have hle := hr.le_stop
    omega

/-- A guarded script calls only routines of lower ranks where it began. -/
theorem rank_lt_of_guarded {r : R} {place : Nat} (h : Calls d.script tokens s cursor r place)
    (hs : s.Guarded d.toRoutines bound after moved) (hstart : start ≤ cursor)
    (hmoved : moved = true → start < cursor) (hplace : place = start) : d.rank r < bound := by
  induction h generalizing moved with
  | here =>
    subst hplace
    exact hs.1.resolve_left fun hm => Nat.lt_irrefl _ (hmoved hm)
  | look _ ih => exact ih (hs _ _) hstart hmoved hplace
  | leave _ _ ih => exact ih hs.2 hstart hmoved hplace
  | take _ _ h _ =>
    have hle := (le_place h).1
    omega
  | later hr _ ih =>
    have hle := hr.le_stop.1
    exact ih (hs.2 _) (by omega) (start_lt_of_call hr hstart hmoved) hplace

/-- A call is at a later cursor, or of a lower rank. -/
theorem Enters.decreases {caller callee : R × Nat} (h : d.Enters tokens caller callee) :
    caller.2 < callee.2 ∨ caller.2 = callee.2 ∧ d.rank callee.1 < d.rank caller.1 := by
  rcases Nat.eq_or_lt_of_le (le_place h).1 with heq | hlt
  · exact .inr ⟨heq, rank_lt_of_guarded h (d.spells _).guarded (Nat.le_refl _)
      Bool.false_ne_true.elim heq.symm⟩
  · exact .inl hlt

theorem Enters.depth_lt {caller callee : R × Nat} (h : d.Enters tokens caller callee) :
    d.depth tokens callee.1 callee.2 < d.depth tokens caller.1 caller.2 := by
  have hle := le_place h
  refine Descent.depth_lt hle.1 (fun _ => by omega) fun heq => ?_
  rcases h.decreases with hlt | ⟨-, hrank⟩
  · omega
  · exact hrank

/-- Along a chain that lowers a measure there are no more members than it allows. -/
theorem length_le_of_isChain {γ : Type} {r : γ → γ → Prop} {m : γ → Nat}
    (hr : ∀ {a b}, r a b → m b < m a) : ∀ {n : Nat} {chain : List γ}, (∀ a ∈ chain.head?, m a < n) →
    chain.IsChain r → chain.length ≤ n := by
  intro n chain
  induction chain generalizing n with
  | nil => simp
  | cons a rest ih =>
    intro hn hchain
    have ha : m a < n := hn a rfl
    have hrest := ih (n := m a) (fun b hb => hr (hchain.rel_head? hb)) hchain.tail
    rw [List.length_cons]
    omega

/-- In front of the same token, no more calls are within each other than there are levels. -/
theorem length_le_levels {nest : List R}
    (h : nest.IsChain fun r r' => d.Enters tokens (r, cursor) (r', cursor)) :
    nest.length ≤ d.levels := by
  refine length_le_of_isChain (m := d.rank) (fun h => ?_) (fun r _ => d.rank_lt r) h
  rcases h.decreases with hlt | ⟨-, hrank⟩
  · exact absurd hlt (Nat.lt_irrefl _)
  · exact hrank

/-- Altogether, no more calls are within each other than there are levels for every cursor. -/
theorem length_le_depth {nest : List (R × Nat)} (h : nest.IsChain (d.Enters tokens)) :
    nest.length ≤ (tokens.length + 1) * d.levels := by
  refine length_le_of_isChain (m := fun c => d.depth tokens c.1 c.2) Enters.depth_lt
    (fun c _ => ?_) h
  have hrank := d.rank_lt c.1
  have hle : (tokens.length - c.2) * d.levels ≤ tokens.length * d.levels :=
    Nat.mul_le_mul_right _ (Nat.sub_le _ _)
  rw [depth, Nat.succ_mul]
  omega

end Descent

end WordC
