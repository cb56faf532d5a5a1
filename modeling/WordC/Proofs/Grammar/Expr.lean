import WordC.Proofs.Grammar.Rules
import WordC.Proofs.Parser.Levels

/-!
# Expressions are read by the grammar

Each parser takes a phrase of the grammar off the front of the tokens, and gives the tree that the
phrase stands for (`Reads`). The levels are followed one by one, with the phrase inside parentheses
as an assumption, and `expr_reads` ties the knot.

The other way around, every phrase is read, whatever follows it, as long as that does not carry the
phrase on (`Level.Stops`, `IsExpr.complete`). This goes by recursion over derivations. Where
operators group to the left, a derivation adds the last operand last, while the parser takes the
first one first: what was read so far is then extended by the rest of the loop (`Level.extend`).
-/

namespace WordC

namespace Grammar

/-! ### Positions -/

theorem first_append {ts : List Token} (h : ts ≠ []) (us : List Token) :
    first (ts ++ us) = first ts := by
  cases ts with
  | nil => exact absurd rfl h
  | cons t ts => rfl

theorem lead_cons_of_ne {t : Token} (h : t.kind ≠ .mark .openParen) (ts : List Token) :
    lead (t :: ts) = t.pos := by
  simp [lead, h, first]

theorem lead_cons_openParen {t : Token} (h : t.kind = .mark .openParen) (ts : List Token) :
    lead (t :: ts) = lead ts := by
  simp [lead, h]

theorem IsAtom.pos_eq {t : Token} {e : Expr} (h : IsAtom t e) :
    e.pos = t.pos ∧ t.kind ≠ .mark .openParen := by
  cases h with
  | name ht | number ht | text ht | character ht | yes ht | no ht => exact ⟨rfl, by simp [ht]⟩

theorem ne_openParen_of_mem_prefixes {m : Mark} {op : UnaryOp} (h : (m, op) ∈ prefixes) :
    m ≠ .openParen := by
  rintro rfl
  simp [prefixes] at h

/-- An expression has the position of its first token that is no opening parenthesis. -/
theorem IsExpr.pos_eq : ∀ {level : Level} {ts : List Token} {e : Expr}, IsExpr level ts e →
    e.pos = lead ts ∧ ∀ us, lead (ts ++ us) = lead ts
  | _, _, _, .tighter _ h => h.pos_eq
  | _, _, _, .assign h _ _ | _, _, _, .logical _ _ h _ _ | _, _, _, .binary _ _ h _ _
  | _, _, _, .call h _ _ _ | _, _, _, .callEmpty h _ _ => by
    have hlead := h.pos_eq.2
    refine ⟨(hlead _).symm, fun us => ?_⟩
    rw [List.append_assoc, hlead, hlead]
  | _, _, _, .unary hop ht _ => by
    have hne := ne_openParen_of_mem_prefixes hop
    refine ⟨(lead_cons_of_ne (by simpa [ht] using hne) _).symm, fun us => ?_⟩
    rw [List.cons_append, lead_cons_of_ne (by simpa [ht] using hne),
      lead_cons_of_ne (by simpa [ht] using hne)]
  | _, _, _, .parens ht h ht' => by
    obtain ⟨hpos, hlead⟩ := h.pos_eq
    refine ⟨by rw [hpos, lead_cons_openParen ht, hlead], fun us => ?_⟩
    rw [List.cons_append, lead_cons_openParen ht, lead_cons_openParen ht, List.append_assoc, hlead,
      hlead]
  | _, _, _, .atom h => by
    obtain ⟨hpos, hne⟩ := h.pos_eq
    exact ⟨hpos.trans (lead_cons_of_ne hne []).symm, fun us => by
      rw [List.singleton_append, lead_cons_of_ne hne, lead_cons_of_ne hne]⟩

end Grammar

namespace Parser
open Grammar

/-- The parser takes a phrase off the front and gives what it stands for. -/
def Reads {α : Type} (p : Parser α) (phrase : List Token → α → Prop) : Prop :=
  ∀ ⦃ts rest : List Token⦄ ⦃a : α⦄, p ts = .ok a rest → ∃ us, ts = us ++ rest ∧ phrase us a

/-! ### Words of expressions -/

theorem isAtom_of_atom? {t : Token} {e : Expr} (h : atom? t = some e) : IsAtom t e := by
  cases hk : t.kind with
  | identifier =>
    simp only [atom?, hk, Option.some.injEq] at h
    exact h ▸ .name hk
  | number value =>
    simp only [atom?, hk, Option.some.injEq] at h
    exact h ▸ .number hk
  | text =>
    simp only [atom?, hk, Option.some.injEq] at h
    exact h ▸ .text hk
  | character code =>
    simp only [atom?, hk, Option.some.injEq] at h
    exact h ▸ .character hk
  | keyword word =>
    cases word with
    | trueWord =>
      simp only [atom?, hk, Option.some.injEq] at h
      exact h ▸ .yes hk
    | falseWord =>
      simp only [atom?, hk, Option.some.injEq] at h
      exact h ▸ .no hk
    | _ => simp [atom?, hk] at h
  | mark m => simp [atom?, hk] at h

theorem prefixOp?_eq_some_iff {t : Token} {op : UnaryOp} {pos : Position} :
    prefixOp? t = some (op, pos) ↔ pos = t.pos ∧ ∃ m, t.kind = .mark m ∧ (m, op) ∈ prefixes := by
  unfold prefixOp? prefixes
  grind

end Parser

namespace Grammar.Level
open WordC.Parser

/-- The operator of a token between two operands of a level. -/
def op? : Level → Token → Option BinaryOp
  | product => productOp?
  | sum => sumOp?
  | relation => relationOp?
  | equality => equalityOp?
  | assign | or | and | unary | call | primary => fun _ => none

theorem op?_eq_some_iff {level : Level} {t : Token} {op : BinaryOp} :
    level.op? t = some op ↔ ∃ m, t.kind = .mark m ∧ (m, op) ∈ level.operators := by
  cases level with
  | product => unfold op? productOp? operators; grind
  | sum => unfold op? sumOp? operators; grind
  | relation => unfold op? relationOp? operators; grind
  | equality => unfold op? equalityOp? operators; grind
  | assign | or | and | unary | call | primary => simp [op?, operators]

end Grammar.Level

namespace Parser
open Grammar

/-! ### Chains -/

section Chains

variable {α : Type} {item : Parser α} {phrase : List Token → α → Prop} {m : Mark}
  {chain : List Token → List α → Prop} {ts rest : List Token} {as : List α}

/-- What is read behind a mark over and over is a chain of phrases with that mark between them. -/
theorem many_onMark_reads (h : Reads item phrase)
    (one : ∀ {ts : List Token} {a : α}, phrase ts a → chain ts [a])
    (more : ∀ {ts us : List Token} {t : Token} {a : α} {as : List α}, phrase ts a →
      t.kind = .mark m → chain us as → chain (ts ++ t :: us) (a :: as))
    (hrun : many (onMark m) (fun _ => item) ts = .ok as rest) :
    as = [] ∧ ts = rest ∨
      ∃ t us, ts = t :: (us ++ rest) ∧ t.kind = .mark m ∧ chain us as := by
  refine many_induct (fun ts => .inl ⟨rfl, rfl⟩) (fun {t _ mid _ _ _ _} ht ha ih => .inr ?_) hrun
  have ht := onMark_eq_some_iff.1 ht
  obtain ⟨us, rfl, hus⟩ := h ha
  rcases ih with ⟨rfl, rfl⟩ | ⟨t', vs, rfl, ht', hvs⟩
  · exact ⟨t, us, rfl, ht, one hus⟩
  · exact ⟨t, us ++ t' :: vs, by simp, ht, more hus ht' hvs⟩

/-- The items up to a closing parenthesis are none at all, or a chain with commas. -/
theorem commaList_reads (h : Reads item phrase)
    (one : ∀ {ts : List Token} {a : α}, phrase ts a → chain ts [a])
    (more : ∀ {ts us : List Token} {t : Token} {a : α} {as : List α}, phrase ts a →
      t.kind = .mark .comma → chain us as → chain (ts ++ t :: us) (a :: as))
    (hrun : commaList item ts = .ok as rest) :
    as = [] ∧ ts = rest ∨ ∃ us, ts = us ++ rest ∧ chain us as := by
  simp only [commaList, bind_eq_ok_iff, next_eq_ok_iff] at hrun
  obtain ⟨closed, _, ⟨-, rfl⟩, hrun⟩ := hrun
  split at hrun
  · exact .inl ((pure_eq_ok_iff.1 hrun).imp_left Eq.symm)
  · simp only [bind_eq_ok_iff, pure_eq_ok_iff] at hrun
    obtain ⟨a, mid, ha, others, _, hothers, rfl, rfl⟩ := hrun
    obtain ⟨us, rfl, hus⟩ := h ha
    rcases many_onMark_reads h one more hothers with ⟨rfl, rfl⟩ | ⟨t, vs, rfl, ht, hvs⟩
    · exact .inr ⟨us, rfl, one hus⟩
    · exact .inr ⟨us ++ t :: vs, by simp, more hus ht hvs⟩

end Chains

/-! ### Levels of expressions -/

section Levels

variable {inner : Parser Expr}

theorem primaryLevel_reads (h : Reads inner (IsExpr .assign)) :
    Reads (primaryLevel inner) (IsExpr .primary) := by
  intro ts rest e hrun
  simp only [primaryLevel, bind_eq_ok_iff, token_eq_ok_iff] at hrun
  obtain ⟨t, mid, rfl, hrun⟩ := hrun
  cases hatom : atom? t with
  | some a =>
    simp only [hatom, pure_eq_ok_iff] at hrun
    obtain ⟨rfl, rfl⟩ := hrun
    exact ⟨[t], rfl, .atom (isAtom_of_atom? hatom)⟩
  | none =>
    simp only [hatom] at hrun
    split at hrun
    next hopen =>
      simp only [bind_eq_ok_iff, mark_eq_ok_iff, pure_eq_ok_iff] at hrun
      obtain ⟨e, _, he, t', _, ⟨rfl, ht'⟩, rfl, rfl⟩ := hrun
      obtain ⟨us, rfl, hus⟩ := h he
      exact ⟨t :: (us ++ [t']), by simp, .parens (by simpa [isMark] using hopen) hus ht'⟩
    next => exact (refuse_eq_ok_iff.1 hrun).elim

/-- A call of what was read so far, with the arguments that follow. -/
theorem arguments_reads (h : Reads inner (IsExpr .assign)) {ts us rest : List Token} {t : Token}
    {callee : Expr} {args : List Expr} (hcallee : IsExpr .call us callee)
    (ht : t.kind = .mark .openParen) (hrun : arguments inner ts = .ok args rest) :
    ∃ vs, ts = vs ++ rest ∧ IsExpr .call (us ++ t :: vs) (.call callee.pos callee args) := by
  simp only [arguments, bind_eq_ok_iff, mark_eq_ok_iff, pure_eq_ok_iff] at hrun
  obtain ⟨args, _, hargs, t', _, ⟨rfl, ht'⟩, rfl, rfl⟩ := hrun
  rw [hcallee.pos_eq.1]
  rcases commaList_reads h IsChain.one IsChain.more hargs with ⟨rfl, rfl⟩ | ⟨vs, rfl, hvs⟩
  · exact ⟨[t'], rfl, .callEmpty hcallee ht ht'⟩
  · exact ⟨vs ++ [t'], by simp, .call hcallee ht hvs ht'⟩

theorem calls_reads (h : Reads inner (IsExpr .assign)) {ts rest : List Token}
    {calls : List (List Expr)}
    (hrun : many (onMark .openParen) (fun _ => arguments inner) ts = .ok calls rest) :
    ∀ ⦃us : List Token⦄ ⦃callee : Expr⦄, IsExpr .call us callee →
      ∃ vs, ts = vs ++ rest ∧ IsExpr .call (us ++ vs) (applyCalls callee calls) := by
  refine many_induct ?_ ?_ hrun
  · intro ts us callee hcallee
    exact ⟨[], rfl, by simpa [applyCalls] using hcallee⟩
  · intro t ts mid rest _ args calls ht hargs ih us callee hcallee
    obtain ⟨vs, rfl, hvs⟩ := arguments_reads h hcallee (onMark_eq_some_iff.1 ht) hargs
    obtain ⟨ws, rfl, hws⟩ := ih hvs
    exact ⟨t :: (vs ++ ws), by simp, by simpa [applyCalls] using hws⟩

theorem callLevel_reads (h : Reads inner (IsExpr .assign)) :
    Reads (callLevel inner) (IsExpr .call) := by
  intro ts rest e hrun
  simp only [callLevel, bind_eq_ok_iff, pure_eq_ok_iff] at hrun
  obtain ⟨callee, mid, hcallee, calls, rest, hcalls, rfl, rfl⟩ := hrun
  obtain ⟨us, rfl, hus⟩ := primaryLevel_reads h hcallee
  obtain ⟨vs, rfl, hvs⟩ := calls_reads h hcalls (.tighter rfl hus)
  exact ⟨us ++ vs, by simp, hvs⟩

theorem prefixes_reads {ts rest : List Token} {ops : List (UnaryOp × Position)}
    (hrun : many prefixOp? pure ts = .ok ops rest) :
    ∃ us, ts = us ++ rest ∧ ∀ {vs : List Token} {e : Expr}, IsExpr .unary vs e →
      IsExpr .unary (us ++ vs) (applyPrefixes ops e) := by
  refine many_induct ?_ ?_ hrun
  · exact fun ts => ⟨[], rfl, id⟩
  · rintro t ts mid rest ⟨op, pos⟩ _ ops hselect hop ⟨us, rfl, hus⟩
    obtain ⟨rfl, rfl⟩ := pure_eq_ok_iff.1 hop
    obtain ⟨rfl, m, ht, hm⟩ := prefixOp?_eq_some_iff.1 hselect
    exact ⟨t :: us, rfl, fun hvs => .unary hm ht (hus hvs)⟩

theorem unaryLevel_reads (h : Reads inner (IsExpr .assign)) :
    Reads (unaryLevel inner) (IsExpr .unary) := by
  intro ts rest e hrun
  simp only [unaryLevel, bind_eq_ok_iff, pure_eq_ok_iff] at hrun
  obtain ⟨ops, mid, hops, operand, rest, hoperand, rfl, rfl⟩ := hrun
  obtain ⟨us, rfl, hus⟩ := prefixes_reads hops
  obtain ⟨vs, rfl, hvs⟩ := callLevel_reads h hoperand
  exact ⟨us ++ vs, by simp, hus (.tighter rfl hvs)⟩

section Operands

variable {level level' : Level} {operand : Parser Expr} {ts rest : List Token}

/-- Operators that group to the left extend what was read so far. -/
theorem joinLeft_reads (hnext : level.next? = some level') (h : Reads operand (IsExpr level'))
    {others : List (BinaryOp × Expr)} (hrun : many level.op? (fun op => do
      let e ← operand
      pure (op, e)) ts = .ok others rest) :
    ∀ ⦃us : List Token⦄ ⦃e : Expr⦄, IsExpr level us e →
      ∃ vs, ts = vs ++ rest ∧ IsExpr level (us ++ vs) (joinLeft e others) := by
  refine many_induct ?_ ?_ hrun
  · intro ts us e he
    exact ⟨[], rfl, by simpa [joinLeft] using he⟩
  · intro t ts mid rest op _ others hop hoperand ih us e he
    simp only [bind_eq_ok_iff, pure_eq_ok_iff] at hoperand
    obtain ⟨right, mid, hright, rfl, rfl⟩ := hoperand
    obtain ⟨m, ht, hm⟩ := Level.op?_eq_some_iff.1 hop
    obtain ⟨vs, rfl, hvs⟩ := h hright
    have hbinary := IsExpr.binary hm hnext he ht hvs
    rw [← he.pos_eq.1] at hbinary
    obtain ⟨ws, rfl, hws⟩ := ih hbinary
    exact ⟨t :: (vs ++ ws), by simp, by simpa [joinLeft] using hws⟩

theorem leftChain_reads (level : Level) (hnext : level.next? = some level')
    (h : Reads operand (IsExpr level')) : Reads (leftChain level.op? operand) (IsExpr level) := by
  intro ts rest e hrun
  simp only [leftChain, bind_eq_ok_iff (p := operand), bind_eq_ok_iff, pure_eq_ok_iff] at hrun
  obtain ⟨first, mid, hfirst, others, rest, hothers, rfl, rfl⟩ := hrun
  obtain ⟨us, rfl, hus⟩ := h hfirst
  obtain ⟨vs, rfl, hvs⟩ := joinLeft_reads hnext h hothers (.tighter hnext hus)
  exact ⟨us ++ vs, by simp, hvs⟩

theorem logicalChain_reads {m : Mark} {op : LogicalOp} (hop : level.connective? = some (m, op))
    (hnext : level.next? = some level') (h : Reads operand (IsExpr level')) :
    Reads (logicalChain m op operand) (IsExpr level) := by
  intro ts rest e hrun
  simp only [logicalChain, bind_eq_ok_iff, pure_eq_ok_iff] at hrun
  obtain ⟨first, mid, hfirst, others, rest, hothers, rfl, rfl⟩ := hrun
  obtain ⟨us, rfl, hus⟩ := h hfirst
  rcases many_onMark_reads h IsChain.one IsChain.more hothers with
    ⟨rfl, rfl⟩ | ⟨t, vs, rfl, ht, hvs⟩
  · exact ⟨us, rfl, .tighter hnext hus⟩
  · have hlogical := IsExpr.logical hop hnext hus ht hvs
    rw [← hus.pos_eq.1] at hlogical
    cases hvs with
    | one => exact ⟨_, by simp, hlogical⟩
    | more => exact ⟨_, by simp, hlogical⟩

/-- An assignment groups what follows it first. -/
theorem joinAssign_reads (h : Reads operand (IsExpr .or)) {others : List Expr}
    (hrun : many (onMark .equal) (fun _ => operand) ts = .ok others rest) :
    ∀ ⦃us : List Token⦄ ⦃e : Expr⦄, IsExpr .or us e →
      ∃ vs, ts = vs ++ rest ∧ IsExpr .assign (us ++ vs) (joinAssign e others) := by
  refine many_induct ?_ ?_ hrun
  · intro ts us e he
    exact ⟨[], rfl, by simpa [joinAssign] using IsExpr.tighter rfl he⟩
  · intro t ts mid rest _ value others ht hvalue ih us e he
    obtain ⟨vs, rfl, hvs⟩ := h hvalue
    obtain ⟨ws, rfl, hws⟩ := ih hvs
    have hassign := IsExpr.assign he (onMark_eq_some_iff.1 ht) hws
    rw [← he.pos_eq.1] at hassign
    exact ⟨t :: (vs ++ ws), by simp, hassign⟩

theorem assignChain_reads (h : Reads operand (IsExpr .or)) :
    Reads (assignChain operand) (IsExpr .assign) := by
  intro ts rest e hrun
  simp only [assignChain, bind_eq_ok_iff, pure_eq_ok_iff] at hrun
  obtain ⟨first, mid, hfirst, others, rest, hothers, rfl, rfl⟩ := hrun
  obtain ⟨us, rfl, hus⟩ := h hfirst
  obtain ⟨vs, rfl, hvs⟩ := joinAssign_reads h hothers hus
  exact ⟨us ++ vs, by simp, hvs⟩

end Operands

theorem assignLevel_reads (h : Reads inner (IsExpr .assign)) :
    Reads (assignLevel inner) (IsExpr .assign) := by
  have hproduct : Reads (productLevel inner) (IsExpr .product) :=
    leftChain_reads .product rfl (unaryLevel_reads h)
  have hsum : Reads (sumLevel inner) (IsExpr .sum) := leftChain_reads .sum rfl hproduct
  have hrelation : Reads (relationLevel inner) (IsExpr .relation) :=
    leftChain_reads .relation rfl hsum
  have hequality : Reads (equalityLevel inner) (IsExpr .equality) :=
    leftChain_reads .equality rfl hrelation
  have hand : Reads (andLevel inner) (IsExpr .and) := logicalChain_reads rfl rfl hequality
  have hor : Reads (orLevel inner) (IsExpr .or) := logicalChain_reads rfl rfl hand
  exact assignChain_reads hor

end Levels

theorem exprWithin_reads : ∀ bound, Reads (exprWithin bound) (IsExpr .assign)
  | [] => fun _ _ _ h => nomatch h
  | _ :: bound => assignLevel_reads (exprWithin_reads bound)

theorem expr_reads : Reads expr (IsExpr .assign) := fun ts _ _ h => exprWithin_reads ts h

end Parser

namespace Grammar

/-! ### First tokens -/

/-- The token can begin a phrase of the level. -/
def Level.Begins (level : Level) (t : Token) : Prop :=
  (∃ e, IsAtom t e) ∨ t.kind = .mark .openParen ∨
    level ≠ .call ∧ level ≠ .primary ∧ ∃ m op, (m, op) ∈ prefixes ∧ t.kind = .mark m

theorem Level.Begins.of_tighter {level level' : Level} {t : Token} (h : level'.Begins t)
    (hnext : level.next? = some level') : level.Begins t := by
  rcases h with hatom | hopen | ⟨hcall, hprimary, hop⟩
  · exact .inl hatom
  · exact .inr (.inl hopen)
  · refine .inr (.inr ⟨?_, ?_, hop⟩) <;> rintro rfl <;> cases hnext
    exact hprimary rfl

theorem IsExpr.begins : ∀ {level : Level} {ts : List Token} {e : Expr}, IsExpr level ts e →
    ∃ t us, ts = t :: us ∧ level.Begins t
  | _, _, _, .tighter hnext h => by
    obtain ⟨t, us, rfl, hbegins⟩ := h.begins
    exact ⟨t, us, rfl, hbegins.of_tighter hnext⟩
  | _, _, _, .assign h _ _ => by
    obtain ⟨t, us, rfl, hbegins⟩ := h.begins
    exact ⟨t, _, rfl, hbegins.of_tighter rfl⟩
  | _, _, _, .logical _ hnext h _ _ => by
    obtain ⟨t, us, rfl, hbegins⟩ := h.begins
    exact ⟨t, _, rfl, hbegins.of_tighter hnext⟩
  | _, _, _, .binary _ _ h _ _ | _, _, _, .call h _ _ _ | _, _, _, .callEmpty h _ _ => by
    obtain ⟨t, us, rfl, hbegins⟩ := h.begins
    exact ⟨t, _, rfl, hbegins⟩
  | _, _, _, .unary hop ht _ =>
    ⟨_, _, rfl, .inr (.inr ⟨nofun, nofun, _, _, hop, ht⟩)⟩
  | _, _, _, .parens ht _ _ => ⟨_, _, rfl, .inr (.inl ht)⟩
  | _, _, _, .atom h => ⟨_, _, rfl, .inl ⟨_, h⟩⟩

theorem Level.Begins.ne_mark {level : Level} {t : Token} {m : Mark} (h : level.Begins t)
    (hopen : m ≠ .openParen) (hfront : ∀ p ∈ prefixes, p.1 ≠ m) : t.kind ≠ .mark m := by
  rcases h with ⟨_, hatom⟩ | ht | ⟨-, -, m', op, hop, ht⟩
  · cases hatom with
    | name ht | number ht | text ht | character ht | yes ht | no ht => simp [ht]
  · rw [ht]
    simpa using hopen.symm
  · rw [ht]
    simpa using hfront _ hop

theorem IsChain.ne_nil {m : Mark} {level : Level} {ts : List Token} {es : List Expr}
    (h : IsChain m level ts es) : es ≠ [] := by
  cases h with
  | one | more => exact List.cons_ne_nil _ _

theorem IsChain.begins {m : Mark} {level : Level} {ts : List Token} {es : List Expr}
    (h : IsChain m level ts es) : ∃ t us, ts = t :: us ∧ level.Begins t := by
  cases h with
  | one h => exact h.begins
  | more h _ _ =>
    obtain ⟨t, us, rfl, hbegins⟩ := h.begins
    exact ⟨t, _, rfl, hbegins⟩

/-! ### Where phrases end -/

open WordC.Parser

namespace Level

/-- The marks that carry on a phrase of the level. -/
def marks : Level → List Mark
  | primary => []
  | call | unary => [.openParen]
  | product => [.openParen, .star, .slash]
  | sum => [.openParen, .star, .slash, .plus, .minus]
  | relation =>
    [.openParen, .star, .slash, .plus, .minus, .less, .lessEqual, .greater, .greaterEqual]
  | equality => [.openParen, .star, .slash, .plus, .minus, .less, .lessEqual, .greater,
      .greaterEqual, .equalEqual, .bangEqual]
  | and => [.openParen, .star, .slash, .plus, .minus, .less, .lessEqual, .greater,
      .greaterEqual, .equalEqual, .bangEqual, .ampAmp]
  | or => [.openParen, .star, .slash, .plus, .minus, .less, .lessEqual, .greater,
      .greaterEqual, .equalEqual, .bangEqual, .ampAmp, .barBar]
  | assign => [.openParen, .star, .slash, .plus, .minus, .less, .lessEqual, .greater,
      .greaterEqual, .equalEqual, .bangEqual, .ampAmp, .barBar, .equal]

/-- The tokens do not carry on a phrase of the level. -/
def Stops (level : Level) (ts : List Token) : Prop :=
  ∀ t ∈ ts.head?, ∀ m ∈ level.marks, t.kind ≠ .mark m

variable {level level' : Level} {t : Token} {ts : List Token} {m : Mark}

theorem stops_cons : level.Stops (t :: ts) ↔ ∀ m ∈ level.marks, t.kind ≠ .mark m := by
  simp [Stops]

theorem stops_of_mark (ht : t.kind = .mark m) (hm : m ∉ level.marks) : level.Stops (t :: ts) := by
  rw [stops_cons]
  intro m' hm' ht'
  rw [ht, Token.Kind.mark.injEq] at ht'
  exact hm (ht' ▸ hm')

theorem Stops.any_isMark (h : level.Stops ts) (hm : m ∈ level.marks) :
    ts.head?.any (isMark m) = false := by
  cases ts with
  | nil => rfl
  | cons t ts => simpa [isMark] using stops_cons.1 h m hm

theorem marks_subset (hnext : level.next? = some level') : level'.marks ⊆ level.marks := by
  cases level <;> cases hnext <;> decide

theorem Stops.of_tighter (h : level.Stops ts) (hnext : level.next? = some level') :
    level'.Stops ts :=
  fun t ht m hm => h t ht m (marks_subset hnext hm)

theorem mem_marks_of_operator {op : BinaryOp} (hop : (m, op) ∈ level.operators) :
    m ∈ level.marks := by
  suffices h : ∀ operator ∈ level.operators, operator.1 ∈ level.marks from h _ hop
  cases level <;> decide

/-- A mark of a level is none of the next level. -/
theorem notMem_marks_of_operator (hnext : level.next? = some level') {op : BinaryOp}
    (hop : (m, op) ∈ level.operators) : m ∉ level'.marks := by
  suffices h : ∀ operator ∈ level.operators, operator.1 ∉ level'.marks from h _ hop
  cases level <;> cases hnext <;> decide

theorem notMem_marks_of_connective (hnext : level.next? = some level') {op : LogicalOp}
    (hop : level.connective? = some (m, op)) : m ∉ level'.marks := by
  cases level <;> cases hnext <;> cases hop <;> decide

/-! ### Runs of the levels -/

/-- The parser for phrases of a level. -/
def parser : Level → Parser Expr
  | assign => Parser.assignment
  | or => Parser.disjunction
  | and => Parser.conjunction
  | equality => Parser.equality
  | relation => Parser.relation
  | sum => Parser.sum
  | product => Parser.product
  | unary => Parser.unary
  | call => Parser.call
  | primary => Parser.primary

theorem parser_consumes (level : Level) : Consumes level.parser := by
  have h := expr_advances.consumes
  cases level with
  | assign => exact (assignLevel_advances h).consumes
  | or => exact (orLevel_advances h).consumes
  | and => exact (andLevel_advances h).consumes
  | equality => exact (equalityLevel_advances h).consumes
  | relation => exact (relationLevel_advances h).consumes
  | sum => exact (sumLevel_advances h).consumes
  | product => exact (productLevel_advances h).consumes
  | unary => exact (unaryLevel_advances h).consumes
  | call => exact (callLevel_advances h).consumes
  | primary => exact (primaryLevel_advances h).consumes

/-- The rest of the parser for a level, with what was read so far, where operators or calls group
to the left. -/
def extend : Level → Expr → Parser Expr
  | call, callee => do
    let calls ← many (onMark .openParen) fun _ => arguments expr
    pure (applyCalls callee calls)
  | equality, e => operands equalityOp? relation.parser e
  | relation, e => operands relationOp? sum.parser e
  | sum, e => operands sumOp? product.parser e
  | product, e => operands productOp? unary.parser e
  | assign, e | or, e | and, e | unary, e | primary, e => pure e
where
  /-- A chain of operators and operands behind an expression. -/
  operands (op? : Token → Option BinaryOp) (operand : Parser Expr) (e : Expr) : Parser Expr := do
    let others ← many op? fun op => do
      let e ← operand
      pure (op, e)
    pure (joinLeft e others)

/-- The level of the operands where operators or calls group to the left, else the level itself. -/
def operand : Level → Level
  | equality => relation
  | relation => sum
  | sum => product
  | product => unary
  | call => primary
  | assign => assign
  | or => or
  | and => and
  | unary => unary
  | primary => primary

theorem Stops.operand (h : level.Stops ts) : level.operand.Stops ts := by
  cases level with
  | equality | relation | sum | product | call => exact h.of_tighter rfl
  | assign | or | and | unary | primary => exact h

variable {e : Expr} {mid rest : List Token}

theorem op?_of_stops (h : level.Stops ts) : ∀ t ∈ ts.head?, level.op? t = none := by
  intro t ht
  rw [Option.eq_none_iff_forall_not_mem]
  intro op hop
  obtain ⟨m, hkind, hm⟩ := op?_eq_some_iff.1 hop
  exact h t ht m (mem_marks_of_operator hm) hkind

theorem many_onMark_of_stops {α : Type} {phrase : Unit → Parser α} (h : level.Stops ts)
    (hm : m ∈ level.marks) : many (onMark m) phrase ts = .ok [] ts := by
  refine many_of_none fun t ht => ?_
  rw [Option.eq_none_iff_forall_not_mem]
  exact fun _ hselect => h t ht m hm (onMark_eq_some_iff.1 hselect)

/-- Where nothing carries on the phrase it is not extended. -/
theorem extend_of_stops (h : level.Stops rest) : level.extend e rest = .ok e rest := by
  have hoperands (operand : Parser Expr) : extend.operands level.op? operand e rest = .ok e rest :=
    bind_of_ok (many_of_none (op?_of_stops h))
  cases level with
  | equality | relation | sum | product => exact hoperands _
  | call => exact bind_of_ok (many_onMark_of_stops h (by decide))
  | assign | or | and | unary | primary => rfl

/-- An operand of a level is read as a phrase of the level, up to its extension. -/
theorem parser_of_tighter (hnext : level.next? = some level') (hunary : level ≠ .unary)
    (hrun : level'.parser ts = .ok e rest) (hstops : level.operand.Stops rest) :
    level.parser ts = level.extend e rest := by
  cases level with
  | unary => exact absurd rfl hunary
  | primary => cases hnext
  | equality | relation | sum | product | call =>
    cases hnext
    exact bind_of_ok hrun
  | assign | or | and =>
    cases hnext
    exact (bind_of_ok hrun).trans (bind_of_ok (many_onMark_of_stops hstops (by decide)))

/-- In front of a call there is no prefix operator. -/
theorem parser_unary_of_call (hrun : call.parser (t :: ts) = .ok e rest) (ht : call.Begins t) :
    unary.parser (t :: ts) = .ok e rest := by
  have hnone : ∀ t' ∈ (t :: ts).head?, prefixOp? t' = none := by
    rintro _ ⟨⟩
    rcases ht with ⟨_, hatom⟩ | hopen | ⟨hcall, -⟩
    · cases hatom with
      | name ht | number ht | text ht | character ht | yes ht | no ht => simp [prefixOp?, ht]
    · simp [prefixOp?, hopen]
    · exact absurd rfl hcall
  exact (bind_of_ok (many_of_none hnone)).trans (bind_of_ok hrun)

/-- An operator and an operand extend a phrase. -/
theorem extend_operator {op : BinaryOp} {right : Expr} (hnext : level.next? = some level')
    (hop : (m, op) ∈ level.operators) (ht : t.kind = .mark m)
    (hright : level'.parser ts = .ok right rest) :
    level.extend e (t :: ts) = level.extend (.binary e.pos op e right) rest := by
  have hoperands : extend.operands level.op? level'.parser e (t :: ts) =
      extend.operands level.op? level'.parser (.binary e.pos op e right) rest :=
    many_foldl (fun op => operand_consumes level'.parser_consumes op)
      (op?_eq_some_iff.2 ⟨m, ht, hop⟩) (bind_of_ok hright)
  cases level with
  | equality | relation | sum | product =>
    cases hnext
    exact hoperands
  | assign | or | and | unary | call | primary => cases hop

/-- An argument list extends a call. -/
theorem extend_call {args : List Expr} (ht : t.kind = .mark .openParen)
    (hargs : arguments expr ts = .ok args rest) :
    call.extend e (t :: ts) = call.extend (.call e.pos e args) rest :=
  many_foldl (fun _ => arguments_consumes expr_advances.consumes) (onMark_eq_some_iff.2 ht) hargs

/-- The tokens are read as a phrase of the level, up to its extension. -/
def Parses (level : Level) (ts : List Token) (e : Expr) : Prop :=
  ∀ ⦃rest : List Token⦄, level.operand.Stops rest → level.parser (ts ++ rest) = level.extend e rest

/-- Where nothing carries on the phrase it is read as it is. -/
theorem Parses.complete (h : level.Parses ts e) (hstops : level.Stops rest) :
    level.parser (ts ++ rest) = .ok e rest :=
  (h hstops.operand).trans (extend_of_stops hstops)

theorem parser_assign : assign.parser = expr := expr_eq.symm

end Level

open Level

section Phrases

variable {level level' : Level} {m : Mark} {t t' : Token} {ts us rest : List Token} {e : Expr}
  {es : List Expr}

/-- The tokens are read as a chain of phrases with marks between them. -/
def ParsesChain (m : Mark) (level : Level) (ts : List Token) (es : List Expr) : Prop :=
  ∀ ⦃rest : List Token⦄, level.Stops rest → rest.head?.any (isMark m) = false →
    Chain m level.parser (ts ++ rest) es rest

theorem parses_tighter (hnext : level.next? = some level') (h : IsExpr level' ts e)
    (ih : level'.Parses ts e) : level.Parses ts e := by
  intro rest hstops
  by_cases hunary : level = .unary
  · subst hunary
    cases hnext
    obtain ⟨t, us, rfl, hbegins⟩ := h.begins
    exact parser_unary_of_call (ih.complete hstops) hbegins
  · have hstops' : level'.Stops rest := by
      cases level with
      | equality | relation | sum | product | call => cases hnext; exact hstops
      | assign | or | and | unary => exact hstops.of_tighter hnext
      | primary => cases hnext
    exact parser_of_tighter hnext hunary (ih.complete hstops') hstops

theorem parses_assign {target value : Expr} (htarget : Level.or.Parses ts target)
    (hlead : target.pos = lead ts) (ht : t.kind = .mark .equal) (hvalue : assign.Parses us value) :
    assign.Parses (ts ++ t :: us) (.assign (lead ts) target value) := by
  intro rest hstops
  have hrun : Level.or.parser (ts ++ t :: (us ++ rest)) = .ok target (t :: (us ++ rest)) :=
    htarget.complete (stops_of_mark ht (by decide))
  have hright : assignChain Level.or.parser (us ++ rest) = .ok value rest := hvalue.complete hstops
  simp only [assignChain, bind_eq_ok_iff, pure_eq_ok_iff] at hright
  obtain ⟨first, mid, hfirst, others, _, hothers, rfl, rfl⟩ := hright
  have hloop := many_eq_ok_of_cons (fun _ => Level.or.parser_consumes) (onMark_eq_some_iff.2 ht)
    hfirst hothers
  rw [List.append_assoc, List.cons_append, ← hlead]
  exact (bind_of_ok hrun).trans (bind_of_ok hloop)

theorem parses_logical {op : LogicalOp} (hop : level.connective? = some (m, op))
    (hnext : level.next? = some level') (he : level'.Parses ts e) (hlead : e.pos = lead ts)
    (ht : t.kind = .mark m) (hes : ParsesChain m level' us es) :
    level.Parses (ts ++ t :: us) (.logical (lead ts) op (e :: es)) := by
  intro rest hstops
  have hrun : level'.parser (ts ++ t :: (us ++ rest)) = .ok e (t :: (us ++ rest)) :=
    he.complete (stops_of_mark ht (notMem_marks_of_connective hnext hop))
  have hstops : level.Stops rest := by
    cases level <;> cases hop <;> exact hstops
  have hmark : m ∈ level.marks := by cases level <;> cases hop <;> decide
  obtain ⟨first, others, mid, rfl, hfirst, hothers⟩ :=
    hes (hstops.of_tighter hnext) (hstops.any_isMark hmark)
  have hloop := many_eq_ok_of_cons (fun _ => level'.parser_consumes) (onMark_eq_some_iff.2 ht)
    hfirst hothers
  rw [List.append_assoc, List.cons_append, ← hlead]
  cases level <;> cases hop <;> cases hnext <;>
    exact (bind_of_ok hrun).trans (bind_of_ok hloop)

theorem parses_binary {op : BinaryOp} {left right : Expr} (hop : (m, op) ∈ level.operators)
    (hnext : level.next? = some level') (hleft : level.Parses ts left)
    (hlead : left.pos = lead ts) (ht : t.kind = .mark m) (hright : level'.Parses us right) :
    level.Parses (ts ++ t :: us) (.binary (lead ts) op left right) := by
  intro rest hstops
  have hoperand : level.operand = level' := by
    cases level with
    | equality | relation | sum | product => cases hnext; rfl
    | assign | or | and | unary | call | primary => cases hop
  rw [hoperand] at hstops
  rw [List.append_assoc, List.cons_append, ← hlead, hleft, extend_operator hnext hop ht]
  · exact hright.complete hstops
  · rw [hoperand]
    exact stops_of_mark ht (notMem_marks_of_operator hnext hop)

theorem parses_unary {op : UnaryOp} (hop : (m, op) ∈ prefixes) (ht : t.kind = .mark m)
    (h : unary.Parses us e) : unary.Parses (t :: us) (.unary t.pos op e) := by
  intro rest hstops
  have hrun : unaryLevel expr (us ++ rest) = .ok e rest := h.complete hstops
  simp only [unaryLevel, bind_eq_ok_iff, pure_eq_ok_iff] at hrun
  obtain ⟨ops, mid, hops, operand, _, hoperand, rfl, rfl⟩ := hrun
  have hloop := many_eq_ok_of_cons (fun w => .pure w)
    (prefixOp?_eq_some_iff.2 ⟨rfl, m, ht, hop⟩) rfl hops
  exact (bind_of_ok hloop).trans (bind_of_ok hoperand)

theorem parses_call {callee : Expr} {args : List Expr} (hcallee : call.Parses ts callee)
    (hlead : callee.pos = lead ts) (ht : t.kind = .mark .openParen)
    (hargs : ∀ rest, arguments expr (us ++ rest) = .ok args rest) :
    call.Parses (ts ++ t :: us) (.call (lead ts) callee args) := by
  intro rest hstops
  have hopen : primary.Stops (t :: (us ++ rest)) := stops_of_mark ht (by decide)
  rw [List.append_assoc, List.cons_append, ← hlead, hcallee hopen, extend_call ht (hargs rest)]

theorem arguments_of_commaList (hlist : commaList expr ts = .ok es (t :: rest))
    (ht : t.kind = .mark .closeParen) : arguments expr ts = .ok es rest :=
  (bind_of_ok hlist).trans (bind_of_ok (mark_eq_ok_iff.2 ⟨rfl, ht⟩))

theorem arguments_nil (ht : t.kind = .mark .closeParen) :
    arguments expr (t :: rest) = .ok [] rest :=
  arguments_of_commaList (commaList_of_closeParen (by simp [isMark, ht])) ht

theorem arguments_chain (h : ParsesChain .comma .assign us es)
    (hbegins : ∃ t ts, us = t :: ts ∧ assign.Begins t) (ht : t.kind = .mark .closeParen) :
    arguments expr (us ++ t :: rest) = .ok es rest := by
  have hchain : Chain .comma expr (us ++ t :: rest) es (t :: rest) := by
    rw [← parser_assign]
    exact h (stops_of_mark ht (by decide)) (by simp [isMark, ht])
  refine arguments_of_commaList (commaList_of_chain ?_ hchain) ht
  obtain ⟨t, ts, rfl, hbegins⟩ := hbegins
  have ht := hbegins.ne_mark (m := .closeParen) (by decide) (by decide)
  simp [isMark, ht]

theorem parses_parens (ht : t.kind = .mark .openParen) (h : assign.Parses us e)
    (ht' : t'.kind = .mark .closeParen) : primary.Parses (t :: (us ++ [t'])) e := by
  intro rest _
  have hinner : expr (us ++ t' :: rest) = .ok e (t' :: rest) := by
    rw [← parser_assign]
    exact h.complete (stops_of_mark ht' (by decide))
  have hatom : atom? t = none := by simp [atom?, ht]
  have hopen : isMark .openParen t = true := by simp [isMark, ht]
  rw [List.cons_append, List.append_assoc]
  refine (bind_of_ok (token_eq_ok_iff.2 rfl)).trans ?_
  simp only [hatom, hopen, if_true]
  exact (bind_of_ok hinner).trans (bind_of_ok (mark_eq_ok_iff.2 ⟨rfl, ht'⟩))

theorem atom?_of_isAtom (h : IsAtom t e) : atom? t = some e := by
  cases h with
  | name ht | number ht | text ht | character ht | yes ht | no ht => simp [atom?, ht]

theorem parses_atom (h : IsAtom t e) : primary.Parses [t] e := by
  intro rest _
  refine (bind_of_ok (token_eq_ok_iff.2 rfl)).trans ?_
  rw [atom?_of_isAtom h]
  rfl

theorem parsesChain_one (h : level.Parses ts e) : ParsesChain m level ts [e] :=
  fun _ hstops hrest => .one (h.complete hstops) hrest

theorem parsesChain_more (hm : m ∉ level.marks) (h : level.Parses ts e) (ht : t.kind = .mark m)
    (hes : ParsesChain m level us es) : ParsesChain m level (ts ++ t :: us) (e :: es) := by
  intro rest hstops hrest
  rw [List.append_assoc, List.cons_append]
  exact .more level.parser_consumes (h.complete (stops_of_mark ht hm)) ht (hes hstops hrest)

end Phrases

mutual

/-- Every phrase of a level is read, up to what extends it. -/
theorem IsExpr.parses : ∀ {level : Level} {ts : List Token} {e : Expr}, IsExpr level ts e →
    level.Parses ts e
  | _, _, _, .tighter hnext h => parses_tighter hnext h h.parses
  | _, _, _, .assign htarget ht hvalue =>
    parses_assign htarget.parses htarget.pos_eq.1 ht hvalue.parses
  | _, _, _, .logical hop hnext he ht hes =>
    parses_logical hop hnext he.parses he.pos_eq.1 ht
      (hes.parses (notMem_marks_of_connective hnext hop))
  | _, _, _, .binary hop hnext hleft ht hright =>
    parses_binary hop hnext hleft.parses hleft.pos_eq.1 ht hright.parses
  | _, _, _, .unary hop ht h => parses_unary hop ht h.parses
  | _, _, _, .callEmpty h ht ht' =>
    parses_call h.parses h.pos_eq.1 ht fun _ => arguments_nil ht'
  | _, _, _, .call h ht hargs ht' =>
    parses_call h.parses h.pos_eq.1 ht fun _ => by
      rw [List.append_assoc]
      exact arguments_chain (hargs.parses (by decide)) hargs.begins ht'
  | _, _, _, .parens ht h ht' => parses_parens ht h.parses ht'
  | _, _, _, .atom h => parses_atom h

theorem IsChain.parses : ∀ {m : Mark} {level : Level} {ts : List Token} {es : List Expr},
    IsChain m level ts es → m ∉ level.marks → ParsesChain m level ts es
  | _, _, _, _, .one h, _ => parsesChain_one h.parses
  | _, _, _, _, .more h ht hes, hm => parsesChain_more hm h.parses ht (hes.parses hm)

end

/-- Every expression is read, where nothing carries it on. -/
theorem IsExpr.complete {ts rest : List Token} {e : Expr} (h : IsExpr .assign ts e)
    (hstops : Level.assign.Stops rest) : expr (ts ++ rest) = .ok e rest := by
  rw [← parser_assign]
  exact h.parses.complete hstops

end Grammar

end WordC
