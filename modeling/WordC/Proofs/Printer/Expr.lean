import WordC.Proofs.Grammar.Expr
import WordC.Proofs.Printer.Words

/-!
# Printed expressions

The grammar derives a printed expression back from its spellings, wherever the tokens are
(`derives_print`), and no phrase that stands for the same expression has fewer parentheses
(`IsExpr.parens_le`).

Both are inductions, one over trees and one over derivations. What carries them is that a phrase of
a level is also one of every level that binds weaker (`IsExpr.weaken`), so it only matters how the
rank of an expression compares with the rank of its place.
-/

namespace WordC
open Grammar

/-! ### Levels -/

namespace Grammar.Level

/-- A level that is not the tightest has a next one, of the next rank. -/
theorem exists_next? {level : Level} (h : level.rank < 9) :
    ∃ level', level.next? = some level' ∧ level'.rank = level.rank + 1 := by
  cases level with
  | primary => exact absurd h (by decide)
  | _ => exact ⟨_, rfl, rfl⟩

theorem rank_le (level : Level) : level.rank ≤ 9 := by cases level <;> decide

/-- A level is determined by its rank. -/
theorem eq_of_rank_eq {level level' : Level} (h : level.rank = level'.rank) : level = level' := by
  have hlist (l : Level) : [assign, or, and, equality, relation, sum, product, unary, call,
      primary][l.rank]? = some l := by cases l <;> rfl
  have hsome := (hlist level).symm.trans (h ▸ hlist level')
  exact Option.some.inj hsome

end Grammar.Level

theorem UnaryOp.mark_mem (op : UnaryOp) : (op.mark, op) ∈ prefixes := by cases op <;> decide

theorem BinaryOp.mark_mem (op : BinaryOp) : (op.mark, op) ∈ op.level.operators := by
  cases op <;> decide

theorem BinaryOp.next?_level (op : BinaryOp) : op.level.next? = some op.level.tighter := by
  cases op <;> rfl

theorem LogicalOp.connective?_level (op : LogicalOp) :
    op.level.connective? = some (op.mark, op) := by cases op <;> rfl

theorem LogicalOp.next?_level (op : LogicalOp) : op.level.next? = some op.level.tighter := by
  cases op <;> rfl

/-- A phrase of a level is one of every level that binds weaker. -/
theorem Grammar.IsExpr.weaken {level level' : Level} {ts : List Token} {e : Expr}
    (h : IsExpr level' ts e) (hle : level.rank ≤ level'.rank) : IsExpr level ts e := by
  obtain ⟨n, hn⟩ := Nat.exists_eq_add_of_le hle
  induction n generalizing level with
  | zero =>
    rw [Level.eq_of_rank_eq (show level.rank = level'.rank by omega)]
    exact h
  | succ n ih =>
    have hbound := level'.rank_le
    have hlt : level.rank < 9 := by omega
    obtain ⟨next, hnext, hrank⟩ := Level.exists_next? hlt
    exact .tighter hnext (ih (by omega) (by omega))

namespace Expr

/-! ### Positions -/

theorem level_forget (e : Expr) : e.forget.level = e.level := by
  cases e <;> simp [forget, level]

mutual

theorem print_forget : ∀ e : Expr, e.forget.print = e.print
  | .assign .. | .binary .. | .unary .. => by simp [forget, print, level_forget, print_forget]
  | .logical .. => by simp [forget, print, printChain_forgetAll]
  | .call .. => by simp [forget, print, level_forget, print_forget, printChain_forgetAll]
  | .name .. | .number .. | .text .. | .character .. | .bool .. => by simp [forget, print]

theorem printChain_forgetAll (m : Mark) (place : Level) : ∀ es : List Expr,
    printChain m place (forgetAll es) = printChain m place es
  | [] => by simp [forgetAll]
  | e :: es => by simp [forgetAll, printChain, level_forget, print_forget, printBehind_forgetAll]

theorem printBehind_forgetAll (m : Mark) (place : Level) : ∀ es : List Expr,
    printBehind m place (forgetAll es) = printBehind m place es
  | [] => by simp [forgetAll]
  | e :: es => by simp [forgetAll, printBehind, level_forget, print_forget, printBehind_forgetAll]

end

end Expr

/-! ### Printed expressions are derived -/

theorem exists_of_map_spelling {ts : List Token} {s : Spelling} {words words' : List Spelling}
    (h : ts.map Token.spelling = words ++ s :: words') : ∃ us t vs, ts = us ++ t :: vs ∧
      us.map Token.spelling = words ∧ t.spelling = s ∧ vs.map Token.spelling = words' := by
  obtain ⟨us, rest, rfl, hus, hrest⟩ := List.map_eq_append_iff.1 h
  obtain ⟨t, vs, rfl, ht, hvs⟩ := List.map_eq_cons_iff.1 hrest
  exact ⟨us, t, vs, rfl, hus, ht, hvs⟩

theorem exists_of_map_spelling_last {ts : List Token} {s : Spelling} {words : List Spelling}
    (h : ts.map Token.spelling = words ++ [s]) : ∃ us t, ts = us ++ [t] ∧
      us.map Token.spelling = words ∧ t.spelling = s := by
  obtain ⟨us, t, vs, rfl, hus, ht, hvs⟩ := exists_of_map_spelling h
  obtain rfl := List.map_eq_nil_iff.1 hvs
  exact ⟨us, t, rfl, hus, ht⟩

/-- From tokens that are spelled this way, the grammar derives the expression up to positions. -/
def Derives (level : Level) (words : List Spelling) (e : Expr) : Prop :=
  ∀ ts, ts.map Token.spelling = words → ∃ e', IsExpr level ts e' ∧ e'.forget = e.forget

/-- The same for a chain of expressions. -/
def DerivesChain (m : Mark) (level : Level) (words : List Spelling) (es : List Expr) : Prop :=
  ∀ ts, ts.map Token.spelling = words →
    ∃ es', IsChain m level ts es' ∧ Expr.forgetAll es' = Expr.forgetAll es

namespace Derives

variable {level place : Level} {words words' : List Spelling} {e target value left right : Expr}
  {pos : Position}

theorem weaken (h : Derives level words e) (hle : place.rank ≤ level.rank) :
    Derives place words e := by
  intro ts hts
  obtain ⟨e', he', hforget⟩ := h ts hts
  exact ⟨e', he'.weaken hle, hforget⟩

theorem parens (h : Derives .assign words e) :
    Derives .primary (.mark .openParen :: (words ++ [.mark .closeParen])) e := by
  intro ts hts
  obtain ⟨t, us, rfl, ht, hus⟩ := List.map_eq_cons_iff.1 hts
  obtain ⟨inner, t', rfl, hinner, ht'⟩ := exists_of_map_spelling_last hus
  obtain ⟨e', he', hforget⟩ := h inner hinner
  exact ⟨e', .parens (Token.kind_of_spelling ht) he' (Token.kind_of_spelling ht'), hforget⟩

/-- At a place of any level. -/
theorem enclose (h : Derives e.level words e) (place : Level) :
    Derives place (enclose place e.level words) e := by
  rw [WordC.enclose]
  split
  · exact (h.weaken (Nat.zero_le _)).parens.weaken place.rank_le
  · rename_i hle
    exact h.weaken (Nat.le_of_not_lt hle)

theorem assign (htarget : Derives .or words target) (hvalue : Derives .assign words' value) :
    Derives .assign (words ++ .mark .equal :: words') (.assign pos target value) := by
  intro ts hts
  obtain ⟨us, t, vs, rfl, hus, ht, hvs⟩ := exists_of_map_spelling hts
  obtain ⟨target', ht', hforget⟩ := htarget us hus
  obtain ⟨value', hv', hforget'⟩ := hvalue vs hvs
  exact ⟨_, .assign ht' (Token.kind_of_spelling ht) hv', by simp [Expr.forget, hforget, hforget']⟩

theorem binary {op : BinaryOp} (hleft : Derives op.level words left)
    (hright : Derives op.level.tighter words' right) :
    Derives op.level (words ++ .mark op.mark :: words') (.binary pos op left right) := by
  intro ts hts
  obtain ⟨us, t, vs, rfl, hus, ht, hvs⟩ := exists_of_map_spelling hts
  obtain ⟨left', hl', hforget⟩ := hleft us hus
  obtain ⟨right', hr', hforget'⟩ := hright vs hvs
  refine ⟨_, .binary op.mark_mem op.next?_level hl' (Token.kind_of_spelling ht) hr', ?_⟩
  simp [Expr.forget, hforget, hforget']

theorem unary {op : UnaryOp} (h : Derives .unary words e) :
    Derives .unary (.mark op.mark :: words) (.unary pos op e) := by
  intro ts hts
  obtain ⟨t, us, rfl, ht, hus⟩ := List.map_eq_cons_iff.1 hts
  obtain ⟨e', he', hforget⟩ := h us hus
  exact ⟨_, .unary op.mark_mem (Token.kind_of_spelling ht) he', by simp [Expr.forget, hforget]⟩

theorem logical {op : LogicalOp} {es : List Expr} (h : Derives op.level.tighter words e)
    (hes : DerivesChain op.mark op.level.tighter words' es) :
    Derives op.level (words ++ .mark op.mark :: words') (.logical pos op (e :: es)) := by
  intro ts hts
  obtain ⟨us, t, vs, rfl, hus, ht, hvs⟩ := exists_of_map_spelling hts
  obtain ⟨e', he', hforget⟩ := h us hus
  obtain ⟨es', hes', hforget'⟩ := hes vs hvs
  refine ⟨_, .logical op.connective?_level op.next?_level he' (Token.kind_of_spelling ht) hes', ?_⟩
  simp [Expr.forget, Expr.forgetAll, hforget, hforget']

theorem callEmpty (h : Derives .call words e) :
    Derives .call (words ++ [.mark .openParen, .mark .closeParen]) (.call pos e []) := by
  intro ts hts
  obtain ⟨us, t, vs, rfl, hus, ht, hvs⟩ := exists_of_map_spelling hts
  obtain ⟨t', rfl, ht'⟩ := List.map_eq_singleton_iff.1 hvs
  obtain ⟨e', he', hforget⟩ := h us hus
  refine ⟨_, .callEmpty he' (Token.kind_of_spelling ht) (Token.kind_of_spelling ht'), ?_⟩
  simp [Expr.forget, hforget]

theorem call {args : List Expr} (h : Derives .call words e)
    (hargs : DerivesChain .comma .assign words' args) :
    Derives .call (words ++ .mark .openParen :: (words' ++ [.mark .closeParen]))
      (.call pos e args) := by
  intro ts hts
  obtain ⟨us, t, rest, rfl, hus, ht, hrest⟩ := exists_of_map_spelling hts
  obtain ⟨vs, t', rfl, hvs, ht'⟩ := exists_of_map_spelling_last hrest
  obtain ⟨e', he', hforget⟩ := h us hus
  obtain ⟨args', hargs', hforget'⟩ := hargs vs hvs
  refine ⟨_, .call he' (Token.kind_of_spelling ht) hargs' (Token.kind_of_spelling ht'), ?_⟩
  simp [Expr.forget, hforget, hforget']

/-- An expression of a single token. -/
theorem atom {s : Spelling}
    (h : ∀ t : Token, t.spelling = s → ∃ e', IsAtom t e' ∧ e'.forget = e.forget) :
    Derives .primary [s] e := by
  intro ts hts
  obtain ⟨t, rfl, ht⟩ := List.map_eq_singleton_iff.1 hts
  obtain ⟨e', he', hforget⟩ := h t ht
  exact ⟨e', .atom he', hforget⟩

end Derives

/-- A chain of printed expressions, at least one. -/
theorem derivesChain {m : Mark} {place : Level} : ∀ {e : Expr} {es : List Expr},
    Derives e.level e.print e → (∀ e' ∈ es, Derives e'.level e'.print e') →
    DerivesChain m place (Expr.printChain m place (e :: es)) (e :: es)
  | e, [], he, _ => by
    intro ts hts
    rw [Expr.printChain, Expr.printBehind, List.append_nil] at hts
    obtain ⟨e', he', hforget⟩ := he.enclose place ts hts
    exact ⟨[e'], .one he', by simp [Expr.forgetAll, hforget]⟩
  | e, next :: es, he, hes => by
    intro ts hts
    rw [Expr.printChain, Expr.printBehind, ← Expr.printChain] at hts
    rw [List.forall_mem_cons] at hes
    obtain ⟨us, t, vs, rfl, hus, ht, hvs⟩ := exists_of_map_spelling hts
    obtain ⟨e', he', hforget⟩ := he.enclose place us hus
    obtain ⟨es', hes', hforget'⟩ := derivesChain hes.1 hes.2 vs hvs
    refine ⟨e' :: es', .more he' (Token.kind_of_spelling ht) hes', ?_⟩
    rw [Expr.forgetAll, Expr.forgetAll, hforget, hforget']

mutual

/-- A printed expression is derived from its spellings. -/
theorem derives_print : ∀ e : Expr, e.isPrintable = true → Derives e.level e.print e
  | .assign _ target value, h => by
    rw [Expr.isPrintable, Bool.and_eq_true] at h
    rw [Expr.print]
    exact .assign ((derives_print target h.1).enclose _) ((derives_print value h.2).enclose _)
  | .logical _ op (first :: next :: es), h => by
    rw [Expr.isPrintable, Bool.and_eq_true] at h
    obtain ⟨hfirst, hothers⟩ := List.forall_mem_cons.1 (derives_printAll _ h.2)
    rw [List.forall_mem_cons] at hothers
    rw [Expr.print, Expr.printChain, Expr.printBehind, ← Expr.printChain]
    exact .logical (hfirst.enclose _) (derivesChain hothers.1 hothers.2)
  | .logical _ _ [], h | .logical _ _ [_], h => by simp [Expr.isPrintable] at h
  | .binary _ op left right, h => by
    rw [Expr.isPrintable, Bool.and_eq_true] at h
    rw [Expr.print]
    exact .binary ((derives_print left h.1).enclose _) ((derives_print right h.2).enclose _)
  | .unary _ op operand, h => by
    rw [Expr.isPrintable] at h
    rw [Expr.print]
    exact .unary ((derives_print operand h).enclose _)
  | .call _ callee [], h => by
    rw [Expr.isPrintable, Bool.and_eq_true] at h
    rw [Expr.print]
    exact .callEmpty ((derives_print callee h.1).enclose _)
  | .call _ callee (arg :: args), h => by
    rw [Expr.isPrintable, Bool.and_eq_true] at h
    obtain ⟨harg, hargs⟩ := List.forall_mem_cons.1 (derives_printAll _ h.2)
    rw [Expr.print]
    exact .call ((derives_print callee h.1).enclose _) (derivesChain harg hargs)
  | .name _ x, _ => by
    refine .atom fun t ht => ⟨_, .name (Token.kind_of_spelling ht), ?_⟩
    simp [Expr.forget, Token.text_of_spelling ht, Spelling.identifier]
  | .text _ content, _ => by
    refine .atom fun t ht => ⟨_, .text (Token.kind_of_spelling ht), ?_⟩
    simp [Expr.forget, Token.text_of_spelling ht, Spelling.string]
  | .number _ value, _ => by
    refine .atom fun t ht => ⟨_, .number (Token.kind_of_spelling ht), ?_⟩
    simp [Expr.forget]
  | .character _ code, _ => by
    refine .atom fun t ht => ⟨_, .character (Token.kind_of_spelling ht), ?_⟩
    simp [Expr.forget]
  | .bool _ true, _ => by
    refine .atom fun t ht => ⟨_, .yes (Token.kind_of_spelling ht), ?_⟩
    simp [Expr.forget]
  | .bool _ false, _ => by
    refine .atom fun t ht => ⟨_, .no (Token.kind_of_spelling ht), ?_⟩
    simp [Expr.forget]

theorem derives_printAll : ∀ es : List Expr, Expr.arePrintable es = true →
    ∀ e ∈ es, Derives e.level e.print e
  | [], _ => nofun
  | e :: es, h => by
    rw [Expr.arePrintable, Bool.and_eq_true] at h
    exact List.forall_mem_cons.2 ⟨derives_print e h.1, derives_printAll es h.2⟩

end

/-! ### The parentheses are needed -/

/-- The number of opening parentheses. -/
def parens (words : List Spelling) : Nat := words.countP fun s => s.kind = .mark .openParen

/-- The tokens have no fewer parentheses than the spellings. -/
def ParensLe (words : List Spelling) (ts : List Token) : Prop :=
  parens words ≤ parens (ts.map Token.spelling)

namespace ParensLe

variable {words words' : List Spelling} {ts us : List Token}

theorem nil (ts : List Token) : ParensLe [] ts := Nat.zero_le _

/-- A spelling and a token of the same kind in front. -/
theorem cons {s : Spelling} {t : Token} (ht : t.kind = s.kind) (h : ParensLe words ts) :
    ParensLe (s :: words) (t :: ts) := by
  unfold ParensLe parens at *
  rw [List.map_cons, List.countP_cons, List.countP_cons, Token.spelling, ht]
  exact Nat.add_le_add_right h _

theorem append (h : ParensLe words ts) (h' : ParensLe words' us) :
    ParensLe (words ++ words') (ts ++ us) := by
  unfold ParensLe parens at *
  rw [List.map_append, List.countP_append, List.countP_append]
  omega

/-- More tokens have no fewer parentheses. -/
theorem of_sublist (h : ParensLe words us) (hsub : us.Sublist ts) : ParensLe words ts :=
  Nat.le_trans h (hsub.map Token.spelling).countP_le

/-- Spellings without any parentheses. -/
theorem of_eq_zero (h : parens words = 0) (ts : List Token) : ParensLe words ts := by
  rw [ParensLe, h]
  exact Nat.zero_le _

end ParensLe

theorem parens_enclose (place level : Level) (words : List Spelling) :
    parens (enclose place level words) =
      parens words + if level.rank < place.rank then 1 else 0 := by
  rw [enclose]
  split <;> simp [parens, Spelling.mark]

theorem enclose_self (level : Level) (words : List Spelling) : enclose level level words = words :=
  if_neg (Nat.lt_irrefl _)

/-- Nothing binds weaker than an assignment. -/
theorem enclose_assign (level : Level) (words : List Spelling) :
    enclose .assign level words = words :=
  if_neg (Nat.not_lt_zero _)

namespace Grammar

theorem Level.rank_next? {level level' : Level} (h : level.next? = some level') :
    level.rank ≤ level'.rank := by
  cases level <;> cases h <;> decide

theorem Level.eq_of_operators {level : Level} {m : Mark} {op : BinaryOp}
    (h : (m, op) ∈ level.operators) : level = op.level ∧ m = op.mark := by
  cases level <;> cases op <;> simp_all [Level.operators, BinaryOp.level, BinaryOp.mark]

theorem Level.eq_of_connective? {level : Level} {m : Mark} {op : LogicalOp}
    (h : level.connective? = some (m, op)) : level = op.level ∧ m = op.mark := by
  cases level <;> cases h <;> exact ⟨rfl, rfl⟩

theorem eq_of_mem_prefixes {m : Mark} {op : UnaryOp} (h : (m, op) ∈ prefixes) : m = op.mark := by
  cases op <;> simp_all [prefixes, UnaryOp.mark]

mutual

/-- No phrase that stands for an expression has fewer parentheses than are printed. -/
theorem IsExpr.parens_le : ∀ {level : Level} {ts : List Token} {e : Expr}, IsExpr level ts e →
    ParensLe (enclose level e.level e.print) ts
  | level, _, e, .tighter hnext h => by
    -- a weaker place asks for parentheses only where the tighter one does
    have hle := h.parens_le
    have hrank := Level.rank_next? hnext
    rw [ParensLe, parens_enclose] at hle ⊢
    by_cases hlt : e.level.rank < level.rank
    · rw [if_pos hlt]
      rwa [if_pos (Nat.lt_of_lt_of_le hlt hrank)] at hle
    · rw [if_neg hlt]
      omega
  | _, _, _, .assign htarget ht hvalue => by
    rw [Expr.level, enclose_self, Expr.print]
    exact htarget.parens_le.append (.cons ht hvalue.parens_le)
  | _, _, _, .logical hop hnext he ht hes => by
    have hfirst := he.parens_le
    have hothers := hes.parens_le
    obtain ⟨rfl, rfl⟩ := Level.eq_of_connective? hop
    rw [LogicalOp.next?_level, Option.some.injEq] at hnext
    subst hnext
    obtain ⟨e', es', rfl⟩ := List.exists_cons_of_ne_nil hes.ne_nil
    rw [Expr.level, enclose_self, Expr.print, Expr.printChain, Expr.printBehind, ← Expr.printChain]
    exact hfirst.append (.cons ht hothers)
  | _, _, _, .binary hop hnext hleft ht hright => by
    have hfirst := hleft.parens_le
    have hsecond := hright.parens_le
    obtain ⟨rfl, rfl⟩ := Level.eq_of_operators hop
    rw [BinaryOp.next?_level, Option.some.injEq] at hnext
    subst hnext
    rw [Expr.level, enclose_self, Expr.print]
    exact hfirst.append (.cons ht hsecond)
  | _, _, _, .unary hop ht h => by
    have hoperand := h.parens_le
    obtain rfl := eq_of_mem_prefixes hop
    rw [Expr.level, enclose_self, Expr.print]
    exact .cons ht hoperand
  | _, _, _, .callEmpty h ht ht' => by
    rw [Expr.level, enclose_self, Expr.print, Expr.printChain]
    exact h.parens_le.append (.cons ht (.cons ht' (.nil [])))
  | _, _, _, .call h ht hargs ht' => by
    rw [Expr.level, enclose_self, Expr.print]
    exact h.parens_le.append (.cons ht (hargs.parens_le.append (.cons ht' (.nil []))))
  | _, _, e, .parens ht h ht' => by
    have hinner := h.parens_le
    rw [enclose_assign] at hinner
    rw [enclose]
    split
    · exact .cons ht (hinner.append (.cons ht' (.nil [])))
    · -- these parentheses are not needed
      exact hinner.of_sublist ((List.sublist_append_left _ _).cons _)
  | _, _, _, .atom h => by
    cases h with
    | name | number | text | character | yes | no => exact .of_eq_zero rfl _

theorem IsChain.parens_le : ∀ {m : Mark} {level : Level} {ts : List Token} {es : List Expr},
    IsChain m level ts es → ParensLe (Expr.printChain m level es) ts
  | _, _, _, _, .one h => by
    rw [Expr.printChain, Expr.printBehind, List.append_nil]
    exact h.parens_le
  | _, _, _, _, .more h ht hes => by
    have hfirst := h.parens_le
    have hothers := hes.parens_le
    obtain ⟨e', es', rfl⟩ := List.exists_cons_of_ne_nil hes.ne_nil
    rw [Expr.printChain, Expr.printBehind, ← Expr.printChain]
    exact hfirst.append (.cons ht hothers)

end

end Grammar

end WordC
