import WordC.Proofs.Grammar.Stmt
import WordC.Proofs.Progress.Routine

/-!
# The parser goes forward

Every routine of the parser runs to an end on every token list, from every cursor, and no routine
takes a token twice or leaves one out. The main statement is `Routine.runs_forward`.
-/

namespace WordC

/-- A program is read up to the end of the tokens. -/
theorem Parser.program_rest {ts rest : List Token} {items : Program}
    (h : program ts = .ok items rest) : rest = [] := by
  refine itemsUntil_induct (motive := fun _ _ rest => rest = []) (fun ts hts => ?_)
    (fun _ hrest => hrest) item_advances h
  cases ts with
  | nil => rfl
  | cons t ts => cases hts

namespace Routine

/-- A run of a routine of the parser. -/
abbrev Runs (r : Routine) (tokens : List Token) (cursor : Nat) (taken : List Nat)
    (outcome : Except Failure r.Value) (stop : Nat) : Prop :=
  Script.Runs script tokens r.script cursor taken outcome stop

/-- Calls of one routine by another, with their cursors. -/
abbrev Enters (tokens : List Token) (caller callee : Routine × Nat) : Prop :=
  descent.Enters tokens caller callee

variable {r : Routine} {tokens : List Token} {cursor stop : Nat} {taken : List Nat}
  {outcome : Except Failure r.Value}

/-- The reply of a routine's parser, as its runs have it. -/
theorem Runs.reply (h : r.Runs tokens cursor taken outcome stop) :
    r.parser (tokens.drop cursor) = .ofOutcome (tokens.drop stop) outcome := by
  rw [← (script_spells r).parser_eq]
  exact h.parser_eq fun r => (script_spells r).parser_eq

/-- The run of a program that is read takes every token. -/
theorem runs_of_ofTokens {items : Program} (h : Program.ofTokens tokens = .ok items) :
    program.Runs tokens 0 (List.range tokens.length) (.ok items) tokens.length := by
  obtain ⟨rest, hrun⟩ := Program.ofTokens_eq_ok_iff_run.1 h
  obtain rfl := Parser.program_rest hrun
  obtain ⟨taken, outcome, stop, hruns⟩ :
      ∃ taken outcome stop, program.Runs tokens 0 taken outcome stop :=
    descent.exists_runs tokens program 0 (Nat.zero_le _)
  have hreply : Parser.program tokens = .ofOutcome (tokens.drop stop) outcome := Runs.reply hruns
  rw [hrun] at hreply
  cases outcome with
  | error failure => cases hreply
  | ok value =>
    obtain ⟨rfl, hdrop⟩ := Reply.ok.inj hreply
    have hstop : stop = tokens.length := by
      have hle := List.drop_eq_nil_iff.1 hdrop.symm
      have hle' := hruns.le_stop
      omega
    subst hstop
    have htaken := hruns.taken_eq
    rw [Nat.sub_zero, ← List.range_eq_range'] at htaken
    exact htaken ▸ hruns

/-- In front of a name or a literal the calls go down the whole chain. -/
theorem chain_enters {t : Token} {e : Expr} (ht : tokens[cursor]? = some t)
    (hatom : Grammar.IsAtom t e) :
    chain.IsChain fun r r' => Enters tokens (r, cursor) (r', cursor) := by
  obtain ⟨hdeclares, hform, hprefixes⟩ :
      t.startsDeclaration = false ∧ Parser.stmtForm t = .expr ∧ Parser.prefixOp? t = none := by
    cases hatom with
    | name hk | number hk | text hk | character hk | yes hk | no hk =>
      simp [Token.startsDeclaration, Parser.stmtForm, Parser.prefixOp?, hk]
  have hitem : Enters tokens (program, cursor) (item, cursor) := by
    refine .look ?_
    simp only [ht, Option.all_some]
    exact .here
  have hstmt : Enters tokens (item, cursor) (stmt, cursor) := by
    refine .look ?_
    simp only [ht, Option.any_some, hdeclares]
    exact .here
  have hexpr : Enters tokens (stmt, cursor) (expr, cursor) := by
    refine .look ?_
    simp only [ht, Option.elim_some, Script.bind, hform]
    exact .here
  have hcall : Enters tokens (level .unary, cursor) (level .call, cursor) := by
    refine .later (.leave ?_ .done) .here
    simp [ht, hprefixes]
  simp only [chain, List.isChain_cons_cons]
  exact ⟨hitem, hstmt, hexpr, .here, .here, .here, .here, .here, .here, .here, .here, hcall, .here,
    .singleton _⟩

/-- The parser goes forward. From every cursor every routine runs to an end, and so do the loops,
which are routines too. Every run has the reply of the routine's parser; it takes the tokens between
its two cursors one after the other, and goes neither back nor behind the last token; and where a
routine for a phrase succeeds, it has gone further on. A call is at a later cursor, or at the same
one and further down in the chain of levels, so that no more calls can be within each other in front
of the same token than that chain is long, nor altogether more than that for every cursor. A program
that is read has taken every token once. -/
theorem runs_forward (tokens : List Token) :
    (∀ (r : Routine) (cursor : Nat), cursor ≤ tokens.length →
      (∃ taken outcome stop, r.Runs tokens cursor taken outcome stop) ∧
      ∀ taken outcome stop, r.Runs tokens cursor taken outcome stop →
        r.parser (tokens.drop cursor) = .ofOutcome (tokens.drop stop) outcome ∧
        taken = List.range' cursor (stop - cursor) ∧ cursor ≤ stop ∧ stop ≤ tokens.length ∧
        (r.takes = true → outcome.isOk = true → cursor < stop)) ∧
    (∀ caller callee, Enters tokens caller callee →
      caller.2 < callee.2 ∨ caller.2 = callee.2 ∧ callee.1.rank < caller.1.rank) ∧
    (∀ cursor (nest : List Routine),
      nest.IsChain (fun r r' => Enters tokens (r, cursor) (r', cursor)) →
      nest.length ≤ chain.length) ∧
    (∀ nest : List (Routine × Nat), nest.IsChain (Enters tokens) →
      nest.length ≤ (tokens.length + 1) * chain.length) ∧
    ∀ items, Program.ofTokens tokens = .ok items →
      program.Runs tokens 0 (List.range tokens.length) (.ok items) tokens.length := by
  refine ⟨fun r cursor hcursor => ⟨descent.exists_runs tokens r cursor hcursor, ?_⟩,
    fun _ _ h => h.decreases, fun _ _ h => Descent.length_le_levels h,
    fun _ h => Descent.length_le_depth h, fun _ h => runs_of_ofTokens h⟩
  intro taken outcome stop h
  have hle := h.le_stop
  refine ⟨Runs.reply h, h.taken_eq, hle.1, by omega, fun htakes hok => ?_⟩
  cases outcome with
  | error failure => cases hok
  | ok value => exact Descent.lt_stop (d := descent) h htakes

/-- A call that is read, token by token: the routine for single words at the argument, and the calls
in front of the callee. -/
theorem runs_forward_call :
    let tokens : List Token :=
      [⟨.identifier, "f", ⟨"a.c", 1, 1⟩⟩, ⟨.mark .openParen, "(", ⟨"a.c", 1, 2⟩⟩,
       ⟨.identifier, "x", ⟨"a.c", 1, 3⟩⟩, ⟨.mark .closeParen, ")", ⟨"a.c", 1, 4⟩⟩,
       ⟨.mark .semicolon, ";", ⟨"a.c", 1, 5⟩⟩]
    let f : Expr := .name ⟨"a.c", 1, 1⟩ "f"
    let x : Expr := .name ⟨"a.c", 1, 3⟩ "x"
    let items : Program := [.expr ⟨"a.c", 1, 1⟩ (.call ⟨"a.c", 1, 1⟩ f [x])]
    Program.ofTokens tokens = .ok items ∧ program.Runs tokens 0 [0, 1, 2, 3, 4] (.ok items) 5 ∧
      (level .primary).Runs tokens 2 [2] (.ok x) 3 ∧
      (level .primary).parser (tokens.drop 2) = .ok x (tokens.drop 3) ∧ 2 < 3 ∧
      chain.IsChain (fun r r' => Enters tokens (r, 0) (r', 0)) ∧ chain.length ≤ 14 := by
  intro tokens f x items
  have hread : Program.ofTokens tokens = .ok items := rfl
  have hword : (level .primary).Runs tokens 2 [2] (.ok x) 3 := .take rfl rfl .done
  have hnest : chain.IsChain fun r r' => Enters tokens (r, 0) (r', 0) :=
    chain_enters rfl (.name rfl)
  obtain ⟨hroutines, -, hlevels, -, hprogram⟩ := runs_forward tokens
  obtain ⟨hreply, -, -, -, hlt⟩ := (hroutines (level .primary) 2 (by decide)).2 _ _ _ hword
  exact ⟨hread, hprogram items hread, hword, hreply, hlt rfl rfl, hnest, hlevels 0 chain hnest⟩

end Routine

end WordC
