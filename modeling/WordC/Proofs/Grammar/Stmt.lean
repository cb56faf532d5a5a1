import WordC.Proofs.Grammar.Expr

/-!
# Statements are read by the grammar

The parts of declarations and statements that have no statement inside are read exactly where the
grammar has them (`type_eq_ok_iff` and the like). For the statements themselves there are two
inductions: over the nesting that the parser allows, in which every statement that it reads is one
of the grammar (`stmt_reads`), and over derivations, in which every statement of the grammar is
read (`IsStmt.complete`).

A statement that ends in an `if` without `else` is read only where no `else` follows, since the
`if` takes it.
-/

namespace WordC

open Grammar

theorem Base.pointer?_ty (base : Base) : base.ty.pointer? = some (.pointer base) := by
  cases base <;> rfl

theorem Ty.isVoid_eq_false_iff {ty : Ty} : ty.isVoid = false ↔ ty ≠ .void := by
  cases ty <;> simp [isVoid]

theorem Ty.array?_eq_some_iff {elem ty : Ty} {count : Nat} :
    elem.array? count = some ty ↔ ∃ e : Elem, elem = e.ty ∧ ty = .array e count := by
  constructor
  · intro h
    cases elem with
    | int => exact ⟨.int, rfl, (Option.some.inj h).symm⟩
    | char => exact ⟨.char, rfl, (Option.some.inj h).symm⟩
    | pointer base => exact ⟨.pointer base, rfl, (Option.some.inj h).symm⟩
    | void | array => cases h
  · rintro ⟨e, rfl, rfl⟩
    cases e <;> rfl

namespace Parser

variable {ts rest : List Token} {t : Token}

/-! ### Types and parameters -/

theorem typeOf?_eq_some_iff {ty : Ty} :
    typeOf? t = some ty ↔ ∃ base : Base, t.kind = .keyword base.word ∧ base.ty = ty := by
  constructor
  · unfold typeOf?
    split
    · rintro ⟨⟩
      exact ⟨.int, ‹_›, rfl⟩
    · rintro ⟨⟩
      exact ⟨.char, ‹_›, rfl⟩
    · rintro ⟨⟩
      exact ⟨.void, ‹_›, rfl⟩
    · rintro ⟨⟩
  · rintro ⟨base, ht, rfl⟩
    cases base <;> simp [typeOf?, ht, Base.word, Base.ty]

/-- The star behind a type is always part of it. -/
theorem type_eq_ok_iff {ty : Ty} :
    type ts = .ok ty rest ↔
      ∃ us, ts = us ++ rest ∧ IsType us ty ∧ rest.head?.any (isMark .star) = false := by
  simp only [type, bind_eq_ok_iff, expect_eq_ok_iff]
  constructor
  · rintro ⟨t, mid, ⟨rfl, hsome⟩, star?, mid', hstar, hrun⟩
    obtain ⟨_, hty⟩ := Option.isSome_iff_exists.1 hsome
    obtain ⟨base, ht, rfl⟩ := typeOf?_eq_some_iff.1 hty
    simp only [hty, Option.getD_some] at hrun
    cases star? with
    | none =>
      obtain ⟨rfl, hnone⟩ := accept_eq_ok_none_iff.1 hstar
      obtain ⟨rfl, rfl⟩ := pure_eq_ok_iff.1 hrun
      exact ⟨[t], rfl, .base ht, hnone⟩
    | some star =>
      obtain ⟨rfl, hmark⟩ := accept_eq_ok_some_iff.1 hstar
      simp only [bind_eq_ok_iff, next_eq_ok_iff] at hrun
      obtain ⟨_, _, ⟨rfl, rfl⟩, hrun⟩ := hrun
      split at hrun
      · exact (fault_eq_ok_iff.1 hrun).elim
      · rename_i hnone
        rw [base.pointer?_ty] at hrun
        obtain ⟨rfl, rfl⟩ := pure_eq_ok_iff.1 hrun
        exact ⟨[t, star], rfl, .pointer ht (by simpa [isMark] using hmark), by simpa using hnone⟩
  · rintro ⟨us, rfl, hty, hrest⟩
    cases hty with
    | @base t base ht =>
      have hty : typeOf? t = some base.ty := typeOf?_eq_some_iff.2 ⟨base, ht, rfl⟩
      refine ⟨t, rest, ⟨rfl, by simp [hty]⟩, none, rest, accept_eq_ok_none_iff.2 ⟨rfl, hrest⟩, ?_⟩
      rw [hty]
      rfl
    | @pointer t star base ht hstar =>
      have hty : typeOf? t = some base.ty := typeOf?_eq_some_iff.2 ⟨base, ht, rfl⟩
      refine ⟨t, star :: rest, ⟨rfl, by simp [hty]⟩, some star, rest,
        accept_eq_ok_some_iff.2 ⟨rfl, by simp [isMark, hstar]⟩, ?_⟩
      have hnext : next (isMark .star) rest = .ok false rest := next_eq_ok_iff.2 ⟨hrest, rfl⟩
      simp only [hty, Option.getD_some, base.pointer?_ty]
      exact bind_of_ok hnext

/-- A parameter is followed by no bracket. -/
theorem parameter_eq_ok_iff {p : Param} :
    parameter ts = .ok p rest ↔
      ∃ us, ts = us ++ rest ∧ IsParam us p ∧ rest.head?.any (isMark .openBracket) = false := by
  simp only [parameter, bind_eq_ok_iff, peek_eq_ok_iff, type_eq_ok_iff, identifier_eq_ok_iff]
  constructor
  · rintro ⟨first, _, ⟨-, rfl⟩, ty, mid, ⟨us, rfl, hty, -⟩, name, _, ⟨rfl, hname⟩, hrun⟩
    split at hrun
    · exact (fault_eq_ok_iff.1 hrun).elim
    · rename_i hvoid
      simp only [bind_eq_ok_iff, next_eq_ok_iff] at hrun
      obtain ⟨_, _, ⟨rfl, rfl⟩, hrun⟩ := hrun
      split at hrun
      · exact (fault_eq_ok_iff.1 hrun).elim
      · rename_i hbracket
        obtain ⟨rfl, rfl⟩ := pure_eq_ok_iff.1 hrun
        have hsome := Ty.isVoid_eq_false_iff.1 (by simpa using hvoid)
        exact ⟨us ++ [name], by simp, .mk hty hname hsome, by simpa using hbracket⟩
  · rintro ⟨_, rfl, ⟨hty, hname, hvoid⟩, hrest⟩
    rename_i us name ty
    obtain ⟨first, hfirst⟩ : ∃ first, (us ++ [name] ++ rest).head? = some first := by
      cases us <;> exact ⟨_, rfl⟩
    refine ⟨first, _, ⟨hfirst, rfl⟩, ty, name :: rest, ⟨us, by simp, hty, ?_⟩, name, rest,
      ⟨rfl, hname⟩, ?_⟩
    · simp [isMark, hname]
    · rw [if_neg (by simp [Ty.isVoid_eq_false_iff.2 hvoid])]
      exact bind_of_ok (next_eq_ok_iff.2 ⟨hrest, rfl⟩)

theorem parameter_reads : Reads parameter IsParam := by
  intro ts rest p h
  obtain ⟨us, hts, hp, -⟩ := parameter_eq_ok_iff.1 h
  exact ⟨us, hts, hp⟩

/-- A chain of parameters is read up to the closing parenthesis. -/
theorem chain_of_isParamList {us : List Token} {ps : List Param} (h : IsParamList us ps)
    (ht : t.kind = .mark .closeParen) :
    Chain .comma parameter (us ++ t :: rest) ps (t :: rest) := by
  induction h with
  | one h =>
    exact .one (parameter_eq_ok_iff.2 ⟨_, rfl, h, by simp [isMark, ht]⟩) (by simp [isMark, ht])
  | @more us vs comma p ps h hcomma hps ih =>
    rw [List.append_assoc, List.cons_append]
    have hp : parameter (us ++ comma :: (vs ++ t :: rest)) = .ok p (comma :: (vs ++ t :: rest)) :=
      parameter_eq_ok_iff.2 ⟨us, rfl, h, by simp [isMark, hcomma]⟩
    exact .more parameter_advances.consumes hp hcomma ih

/-- Parameters do not look like an empty list, or like `void` alone. -/
theorem begins_of_isParamList {us : List Token} {ps : List Param} (h : IsParamList us ps)
    (vs : List Token) : (us ++ vs).head?.any (isMark .closeParen) = false ∧
      startsVoidList (us ++ vs) = .ok false (us ++ vs) := by
  have hparam {us : List Token} {p : Param} (h : IsParam us p) (vs : List Token) :
      (us ++ vs).head?.any (isMark .closeParen) = false ∧
        startsVoidList (us ++ vs) = .ok false (us ++ vs) := by
    obtain ⟨hty, hname, -⟩ := h
    cases hty with
    | base ht => simp [startsVoidList, isMark, ht, hname]
    | pointer ht hstar => simp [startsVoidList, isMark, ht, hstar]
  cases h with
  | one h => exact hparam h vs
  | more h _ _ =>
    rw [List.append_assoc]
    exact hparam h _

theorem parameters_eq_ok_iff {ps : List Param} :
    parameters ts = .ok ps rest ↔ ∃ us, ts = us ++ rest ∧ IsParams us ps := by
  constructor
  · intro hrun
    simp only [parameters, bind_eq_ok_iff, mark_eq_ok_iff] at hrun
    obtain ⟨t, mid, ⟨rfl, ht⟩, void, _, hvoid, hrun⟩ := hrun
    obtain ⟨rfl, rfl⟩ := Reply.ok.inj hvoid
    split at hrun
    · simp only [bind_eq_ok_iff, keyword_eq_ok_iff, mark_eq_ok_iff, pure_eq_ok_iff] at hrun
      obtain ⟨word, _, ⟨rfl, hword⟩, t', _, ⟨rfl, ht'⟩, rfl, rfl⟩ := hrun
      exact ⟨[t, word, t'], rfl, .void ht hword ht'⟩
    · simp only [bind_eq_ok_iff, mark_eq_ok_iff, pure_eq_ok_iff] at hrun
      obtain ⟨ps, _, hps, t', _, ⟨rfl, ht'⟩, rfl, rfl⟩ := hrun
      rcases commaList_reads parameter_reads IsParamList.one IsParamList.more hps with
        ⟨rfl, rfl⟩ | ⟨us, rfl, hus⟩
      · exact ⟨[t, t'], rfl, .empty ht ht'⟩
      · exact ⟨t :: (us ++ [t']), by simp, .list ht hus ht'⟩
  · rintro ⟨us, rfl, hps⟩
    have hclose {t : Token} (ht : t.kind = .mark .closeParen) :
        mark .closeParen (t :: rest) = .ok t rest := mark_eq_ok_iff.2 ⟨rfl, ht⟩
    cases hps with
    | @void t word t' ht hword ht' =>
      have hvoid : startsVoidList (word :: t' :: rest) = .ok true (word :: t' :: rest) := by
        simp [startsVoidList, isKeyword, isMark, hword, ht']
      refine (bind_of_ok (mark_eq_ok_iff.2 ⟨rfl, ht⟩)).trans ((bind_of_ok hvoid).trans ?_)
      exact (bind_of_ok (keyword_eq_ok_iff.2 ⟨rfl, hword⟩)).trans (bind_of_ok (hclose ht'))
    | @empty t t' ht ht' =>
      have hvoid : startsVoidList (t' :: rest) = .ok false (t' :: rest) := by
        simp [startsVoidList, isKeyword, ht']
      refine (bind_of_ok (mark_eq_ok_iff.2 ⟨rfl, ht⟩)).trans ((bind_of_ok hvoid).trans ?_)
      have hnone : commaList parameter (t' :: rest) = .ok [] (t' :: rest) :=
        commaList_of_closeParen (by simp [isMark, ht'])
      exact (bind_of_ok hnone).trans (bind_of_ok (hclose ht'))
    | @list t t' us _ ht hlist ht' =>
      obtain ⟨hopen, hvoid⟩ := begins_of_isParamList hlist (t' :: rest)
      rw [List.cons_append, List.append_assoc]
      refine (bind_of_ok (mark_eq_ok_iff.2 ⟨rfl, ht⟩)).trans ((bind_of_ok hvoid).trans ?_)
      have hps := commaList_of_chain hopen (chain_of_isParamList hlist ht')
      exact (bind_of_ok hps).trans (bind_of_ok (hclose ht'))

/-! ### Expressions in statements -/

/-- An expression in front of a mark that does not carry it on. -/
theorem expr_mark_iff {m : Mark} {e : Expr} (hm : m ∉ Level.assign.marks) (ht : t.kind = .mark m) :
    expr ts = .ok e (t :: rest) ↔ ∃ us, ts = us ++ t :: rest ∧ IsExpr .assign us e := by
  constructor
  · exact fun h => expr_reads h
  · rintro ⟨us, rfl, h⟩
    exact h.complete (Level.stops_of_mark ht hm)

theorem begins_of_isExpr {m : Mark} {us : List Token} {e : Expr} (h : IsExpr .assign us e)
    (hopen : m ≠ .openParen) (hfront : ∀ p ∈ prefixes, p.1 ≠ m) (vs : List Token) :
    (us ++ vs).head?.any (isMark m) = false := by
  obtain ⟨t, us, rfl, hbegins⟩ := h.begins
  simpa [isMark] using hbegins.ne_mark hopen hfront

/-- An expression or nothing in front of a mark that neither begins an expression nor carries it
on. -/
theorem exprUnless_mark_iff {m : Mark} {value : Option Expr} (hm : m ∉ Level.assign.marks)
    (hfront : ∀ p ∈ prefixes, p.1 ≠ m) (ht : t.kind = .mark m) :
    exprUnless m ts = .ok value (t :: rest) ↔ ∃ us, ts = us ++ t :: rest ∧ IsOptional us value := by
  have hopen : m ≠ .openParen := by
    rintro rfl
    exact hm (by decide)
  constructor
  · intro hrun
    simp only [exprUnless, bind_eq_ok_iff, next_eq_ok_iff] at hrun
    obtain ⟨_, _, ⟨rfl, rfl⟩, hrun⟩ := hrun
    split at hrun
    · obtain ⟨rfl, rfl⟩ := pure_eq_ok_iff.1 hrun
      exact ⟨[], rfl, .none⟩
    · simp only [bind_eq_ok_iff, pure_eq_ok_iff] at hrun
      obtain ⟨e, _, he, rfl, rfl⟩ := hrun
      obtain ⟨us, rfl, hus⟩ := expr_reads he
      exact ⟨us, rfl, .some hus⟩
  · rintro ⟨us, rfl, hvalue⟩
    cases hvalue with
    | none =>
      have hnext : next (isMark m) (t :: rest) = .ok true (t :: rest) :=
        next_eq_ok_iff.2 ⟨by simp [isMark, ht], rfl⟩
      exact bind_of_ok hnext
    | some h =>
      have hnext := next_eq_ok_iff.2 ⟨begins_of_isExpr h hopen hfront (t :: rest), rfl⟩
      exact (bind_of_ok hnext).trans (bind_of_ok ((expr_mark_iff hm ht).2 ⟨us, rfl, h⟩))

theorem condition_eq_ok_iff {cond : Expr} :
    condition ts = .ok cond rest ↔ ∃ us, ts = us ++ rest ∧ IsCondition us cond := by
  simp only [condition, bind_eq_ok_iff, mark_eq_ok_iff, pure_eq_ok_iff]
  constructor
  · rintro ⟨t, _, ⟨rfl, ht⟩, e, _, he, t', _, ⟨rfl, ht'⟩, rfl, rfl⟩
    obtain ⟨us, rfl, hus⟩ := expr_reads he
    exact ⟨t :: (us ++ [t']), by simp, .mk ht hus ht'⟩
  · rintro ⟨_, rfl, ⟨ht, h, ht'⟩⟩
    rename_i t t' us
    exact ⟨t, us ++ t' :: rest, ⟨by simp, ht⟩, cond, t' :: rest,
      (expr_mark_iff (by decide) ht').2 ⟨us, rfl, h⟩, t', rest, ⟨rfl, ht'⟩, rfl, rfl⟩

/-! ### Variables -/

theorem arrayCount_eq_ok_iff {name : String} {count : Nat} :
    arrayCount name ts = .ok count rest ↔
      ∃ t size t' value, ts = [t, size, t'] ++ rest ∧ t.kind = .mark .openBracket ∧
        size.kind = .number value ∧ value ≠ 0 ∧ t'.kind = .mark .closeBracket ∧
        count = value.toNat := by
  simp only [arrayCount, bind_eq_ok_iff, mark_eq_ok_iff, expect_eq_ok_iff]
  constructor
  · rintro ⟨t, _, ⟨rfl, ht⟩, size, _, ⟨rfl, -⟩, hrun⟩
    cases hsize : size.kind with
    | number value =>
      simp only [hsize] at hrun
      split at hrun
      · exact (fault_eq_ok_iff.1 hrun).elim
      · rename_i hvalue
        simp only [bind_eq_ok_iff, mark_eq_ok_iff, pure_eq_ok_iff] at hrun
        obtain ⟨t', _, ⟨rfl, ht'⟩, rfl, rfl⟩ := hrun
        exact ⟨t, size, t', value, rfl, ht, hsize, hvalue, ht', rfl⟩
    | _ =>
      simp only [hsize] at hrun
      exact (fault_eq_ok_iff.1 hrun).elim
  · rintro ⟨t, size, t', value, rfl, ht, hsize, hvalue, ht', rfl⟩
    refine ⟨t, _, ⟨rfl, ht⟩, size, _, ⟨rfl, by simp [isNumber, hsize]⟩, ?_⟩
    simp only [hsize, if_neg hvalue]
    exact bind_of_ok (mark_eq_ok_iff.2 ⟨rfl, ht'⟩)

section Variables

variable {pos : Position} {constant : Bool} {ty : Ty} {name : String} {s : Stmt}

theorem arrayDeclaration_eq_ok_iff :
    arrayDeclaration pos constant ty name ts = .ok s rest ↔
      ∃ t size t' semicolon elem count, ts = [t, size, t', semicolon] ++ rest ∧ ty = Elem.ty elem ∧
        t.kind = .mark .openBracket ∧ size.kind = .number count ∧ count ≠ 0 ∧
        t'.kind = .mark .closeBracket ∧ semicolon.kind = .mark .semicolon ∧
        s = .var pos ⟨name, .array elem count.toNat, constant, none⟩ := by
  simp only [arrayDeclaration, bind_eq_ok_iff, arrayCount_eq_ok_iff]
  constructor
  · rintro ⟨_, mid, ⟨t, size, t', count, rfl, ht, hsize, hcount, ht', rfl⟩, hrun⟩
    cases harray : ty.array? count.toNat with
    | none =>
      simp only [harray] at hrun
      exact (fault_eq_ok_iff.1 hrun).elim
    | some array =>
      obtain ⟨elem, rfl, rfl⟩ := Ty.array?_eq_some_iff.1 harray
      simp only [harray, bind_eq_ok_iff] at hrun
      obtain ⟨equal?, mid, hequal, hrun⟩ := hrun
      cases equal? with
      | some equal => exact (fault_eq_ok_iff.1 hrun).elim
      | none =>
        obtain ⟨rfl, -⟩ := accept_eq_ok_none_iff.1 hequal
        simp only [bind_eq_ok_iff, mark_eq_ok_iff, pure_eq_ok_iff] at hrun
        obtain ⟨semicolon, _, ⟨rfl, hsemicolon⟩, rfl, rfl⟩ := hrun
        exact
          ⟨t, size, t', semicolon, elem, count, rfl, rfl, ht, hsize, hcount, ht', hsemicolon, rfl⟩
  · rintro ⟨t, size, t', semicolon, elem, count, rfl, rfl, ht, hsize, hcount, ht', hsemicolon, rfl⟩
    refine ⟨_, semicolon :: rest, ⟨t, size, t', count, rfl, ht, hsize, hcount, ht', rfl⟩, ?_⟩
    simp only [Ty.array?_eq_some_iff.2 ⟨elem, rfl, rfl⟩]
    have hequal : accept (isMark .equal) (semicolon :: rest) = .ok none (semicolon :: rest) :=
      accept_eq_ok_none_iff.2 ⟨rfl, by simp [isMark, hsemicolon]⟩
    exact (bind_of_ok hequal).trans (bind_of_ok (mark_eq_ok_iff.2 ⟨rfl, hsemicolon⟩))

theorem initializedDeclaration_eq_ok_iff :
    initializedDeclaration pos constant ty name ts = .ok s rest ↔
      ∃ t us semicolon init, ts = t :: (us ++ semicolon :: rest) ∧ ty ≠ .void ∧
        t.kind = .mark .equal ∧ IsExpr .assign us init ∧ semicolon.kind = .mark .semicolon ∧
        s = .var pos ⟨name, ty, constant, some init⟩ := by
  rw [initializedDeclaration]
  split
  · rename_i hvoid
    rw [fault_eq_ok_iff, false_iff]
    rintro ⟨_, _, _, _, -, hne, -⟩
    rw [Ty.isVoid_eq_false_iff.2 hne] at hvoid
    cases hvoid
  · rename_i hvoid
    have hvoid : ty ≠ .void := Ty.isVoid_eq_false_iff.1 (by simpa using hvoid)
    simp only [bind_eq_ok_iff, mark_eq_ok_iff, pure_eq_ok_iff]
    constructor
    · rintro ⟨t, _, ⟨rfl, ht⟩, init, _, hinit, semicolon, _, ⟨rfl, hsemicolon⟩, rfl, rfl⟩
      obtain ⟨us, rfl, hus⟩ := expr_reads hinit
      exact ⟨t, us, semicolon, init, rfl, hvoid, ht, hus, hsemicolon, rfl⟩
    · rintro ⟨t, us, semicolon, init, rfl, -, ht, hus, hsemicolon, rfl⟩
      exact ⟨t, _, ⟨rfl, ht⟩, init, _, (expr_mark_iff (by decide) hsemicolon).2 ⟨us, rfl, hus⟩,
        semicolon, rest, ⟨rfl, hsemicolon⟩, rfl, rfl⟩

theorem bareDeclaration_eq_ok_iff :
    bareDeclaration pos constant ty name ts = .ok s rest ↔
      ∃ semicolon, ts = semicolon :: rest ∧ ty ≠ .void ∧ semicolon.kind = .mark .semicolon ∧
        s = .var pos ⟨name, ty, constant, none⟩ := by
  rw [bareDeclaration]
  split
  · rename_i hvoid
    rw [fault_eq_ok_iff, false_iff]
    rintro ⟨_, -, hne, -⟩
    rw [Ty.isVoid_eq_false_iff.2 hne] at hvoid
    cases hvoid
  · rename_i hvoid
    have hvoid : ty ≠ .void := Ty.isVoid_eq_false_iff.1 (by simpa using hvoid)
    simp only [bind_eq_ok_iff, mark_eq_ok_iff, pure_eq_ok_iff]
    constructor
    · rintro ⟨semicolon, _, ⟨rfl, hsemicolon⟩, rfl, rfl⟩
      exact ⟨semicolon, rfl, hvoid, hsemicolon, rfl⟩
    · rintro ⟨semicolon, rfl, -, hsemicolon, rfl⟩
      exact ⟨semicolon, rest, ⟨rfl, hsemicolon⟩, rfl, rfl⟩

end Variables

/-! ### Declarations -/

section Declarations

variable {inner : Parser Stmt} {s : Stmt}

/-- The rest of a declaration, with the given token in front. -/
def declarator (inner : Parser Stmt) (pos : Position) (constant : Bool) (ty : Ty) (name : String)
    (t : Token) : Parser Stmt :=
  match declarationForm? t with
  | some .array => arrayDeclaration pos constant ty name
  | some .initialized => initializedDeclaration pos constant ty name
  | some .bare => bareDeclaration pos constant ty name
  | some .function => functionLevel inner pos ty name
  | none => refuse t declaratorEnds

/-- A declaration has a head, and a rest that shows in its first token. -/
theorem declarationLevel_eq_ok_iff :
    declarationLevel inner ts = .ok s rest ↔
      ∃ us constant ty name t mid, ts = us ++ t :: mid ∧ IsHead us constant ty name ∧
        declarator inner (first us) constant ty name t (t :: mid) = .ok s rest := by
  simp only [declarationLevel, bind_eq_ok_iff, peek_eq_ok_iff, type_eq_ok_iff, identifier_eq_ok_iff]
  constructor
  · rintro ⟨t₀, _, ⟨hfirst, rfl⟩, const?, _, hconst, ty, _, ⟨us, rfl, hty, -⟩, name, _,
      ⟨rfl, hname⟩, t, _, ⟨ht, rfl⟩, hrun⟩
    obtain ⟨mid, rfl⟩ := List.head?_eq_some_iff.1 ht
    cases const? with
    | none =>
      obtain ⟨rfl, -⟩ := accept_eq_ok_none_iff.1 hconst
      refine ⟨us ++ [name], false, ty, name.text, t, mid, by simp, .plain hty hname, ?_⟩
      have hpos : first (us ++ [name]) = t₀.pos := by
        cases hty <;> cases hfirst <;> rfl
      rw [hpos]
      exact hrun
    | some word =>
      obtain ⟨rfl, hword⟩ := accept_eq_ok_some_iff.1 hconst
      cases hfirst
      exact ⟨t₀ :: (us ++ [name]), true, ty, name.text, t, mid, by simp,
        .const (by simpa [isKeyword] using hword) hty hname, hrun⟩
  · rintro ⟨us, constant, ty, name, t, mid, rfl, hhead, hrun⟩
    cases hhead with
    | @plain us name _ hty hname =>
      obtain ⟨t₀, hfirst, hconst, hpos⟩ : ∃ t₀, (us ++ [name] ++ t :: mid).head? = some t₀ ∧
          isKeyword .constWord t₀ = false ∧ t₀.pos = first (us ++ [name]) := by
        cases hty with
        | @base t₀ base ht | @pointer t₀ _ base ht =>
          exact ⟨t₀, rfl, by cases base <;> simp [isKeyword, ht, Base.word], rfl⟩
      refine ⟨t₀, _, ⟨hfirst, rfl⟩, none, _,
        accept_eq_ok_none_iff.2 ⟨rfl, by rw [hfirst]; exact hconst⟩, ty, name :: t :: mid,
        ⟨us, by simp, hty, by simp [isMark, hname]⟩, name, t :: mid,
        ⟨rfl, hname⟩, t, t :: mid, ⟨rfl, rfl⟩, ?_⟩
      rw [hpos]
      exact hrun
    | @const word us name _ hword hty hname =>
      exact ⟨word, _, ⟨rfl, rfl⟩, some word, us ++ [name] ++ t :: mid,
        accept_eq_ok_some_iff.2 ⟨rfl, by simp [isKeyword, hword]⟩, ty, name :: t :: mid,
        ⟨us, by simp, hty, by simp [isMark, hname]⟩, name, t :: mid, ⟨rfl, hname⟩, t, t :: mid,
        ⟨rfl, rfl⟩, hrun⟩

end Declarations

/-! ### What is read is a statement -/

/-- The tokens begin with `else`. -/
def startsElse (ts : List Token) : Bool := ts.head?.any (isKeyword .elseWord)

/-- The tokens begin with the statement, and what is left has no `else` that belongs to it. -/
def HasStmt (ts : List Token) (s : Stmt) (rest : List Token) : Prop :=
  ∃ us, ts = us ++ rest ∧ IsStmt us s ∧ (s.isOpen = true → startsElse rest = false)

/-- What the parser takes off the front is a statement. -/
def ReadsStmt (p : Parser Stmt) : Prop :=
  ∀ ⦃ts rest : List Token⦄ ⦃s : Stmt⦄, p ts = .ok s rest → HasStmt ts s rest

section Soundness

variable {inner : Parser Stmt} {s : Stmt} {pos : Position}

theorem functionLevel_reads (h : ReadsStmt inner) {us : List Token} {constant : Bool} {result : Ty}
    {name : String} (hhead : IsHead us constant result name)
    (hrun : functionLevel inner (first us) result name ts = .ok s rest) :
    ∃ vs, ts = vs ++ rest ∧ IsItem (us ++ vs) s := by
  simp only [functionLevel, bind_eq_ok_iff, parameters_eq_ok_iff] at hrun
  obtain ⟨params, _, ⟨vs, rfl, hparams⟩, semicolon?, _, hsemicolon, hrun⟩ := hrun
  cases semicolon? with
  | some semicolon =>
    obtain ⟨rfl, hmark⟩ := accept_eq_ok_some_iff.1 hsemicolon
    obtain ⟨rfl, rfl⟩ := pure_eq_ok_iff.1 hrun
    exact ⟨vs ++ [semicolon], by simp, .prototype hhead hparams (by simpa [isMark] using hmark)⟩
  | none =>
    obtain ⟨rfl, -⟩ := accept_eq_ok_none_iff.1 hsemicolon
    simp only [bind_eq_ok_iff, pure_eq_ok_iff] at hrun
    obtain ⟨body, _, hbody, rfl, rfl⟩ := hrun
    obtain ⟨ws, rfl, hws, -⟩ := h hbody
    exact ⟨vs ++ ws, by simp, .function hhead hparams hws⟩

theorem declarator_reads (h : ReadsStmt inner) {us : List Token} {constant : Bool} {ty : Ty}
    {name : String} (hhead : IsHead us constant ty name)
    (hrun : declarator inner (first us) constant ty name t ts = .ok s rest) :
    ∃ vs, ts = vs ++ rest ∧ IsItem (us ++ vs) s := by
  have hpos (vs : List Token) : first us = first (us ++ vs) :=
    (first_append (by cases hhead <;> simp) vs).symm
  cases hform : declarationForm? t with
  | none =>
    simp only [declarator, hform] at hrun
    exact (refuse_eq_ok_iff.1 hrun).elim
  | some form =>
    simp only [declarator, hform] at hrun
    cases form with
    | array =>
      obtain ⟨t, size, t', semicolon, elem, count, rfl, rfl, ht, hsize, hcount, ht', hsemicolon,
        rfl⟩ := arrayDeclaration_eq_ok_iff.1 hrun
      refine ⟨[t, size, t', semicolon], rfl, ?_⟩
      rw [hpos [t, size, t', semicolon]]
      exact .var (.array hhead ht hsize hcount ht' hsemicolon)
    | initialized =>
      obtain ⟨t, vs, semicolon, init, rfl, hvoid, ht, hvs, hsemicolon, rfl⟩ :=
        initializedDeclaration_eq_ok_iff.1 hrun
      refine ⟨t :: (vs ++ [semicolon]), by simp, ?_⟩
      rw [hpos (t :: (vs ++ [semicolon]))]
      exact .var (.initialized hhead hvoid ht hvs hsemicolon)
    | bare =>
      obtain ⟨semicolon, rfl, hvoid, hsemicolon, rfl⟩ := bareDeclaration_eq_ok_iff.1 hrun
      refine ⟨[semicolon], rfl, ?_⟩
      rw [hpos [semicolon]]
      exact .var (.bare hhead hvoid hsemicolon)
    | function => exact functionLevel_reads h hhead hrun

theorem itemLevel_reads (h : ReadsStmt inner) : Reads (itemLevel inner) IsItem := by
  intro ts rest s hrun
  simp only [itemLevel, bind_eq_ok_iff, next_eq_ok_iff] at hrun
  obtain ⟨_, _, ⟨rfl, rfl⟩, hrun⟩ := hrun
  split at hrun
  · obtain ⟨us, constant, ty, name, t, mid, rfl, hhead, hrun⟩ := declarationLevel_eq_ok_iff.1 hrun
    obtain ⟨vs, hvs, hitem⟩ := declarator_reads h hhead hrun
    exact ⟨us ++ vs, by rw [hvs, List.append_assoc], hitem⟩
  · obtain ⟨us, rfl, hus, -⟩ := h hrun
    exact ⟨us, rfl, .stmt hus⟩

theorem itemsUntil_reads (ha : Advances inner) (h : ReadsStmt inner) {stop : Token → Bool}
    {ss : List Stmt} (hrun : itemsUntil stop (itemLevel inner) ts = .ok ss rest) :
    ∃ us, ts = us ++ rest ∧ IsItems us ss ∧ rest.head?.all stop = true := by
  refine itemsUntil_induct ?_ ?_ (itemLevel_advances ha) hrun
  · exact fun ts hstop => ⟨[], rfl, .nil, hstop⟩
  · rintro ts mid rest s ss hs ⟨us, rfl, hus, hstop⟩
    obtain ⟨vs, rfl, hvs⟩ := itemLevel_reads h hs
    exact ⟨vs ++ us, by simp, .cons hvs hus, hstop⟩

theorem blockLevel_reads (ha : Advances inner) (h : ReadsStmt inner)
    (hrun : blockLevel inner t.pos (t :: ts) = .ok s rest) :
    HasStmt (t :: ts) s rest := by
  simp only [blockLevel, bind_eq_ok_iff, mark_eq_ok_iff, pure_eq_ok_iff, List.cons.injEq] at hrun
  obtain ⟨_, _, ⟨⟨rfl, rfl⟩, ht⟩, items, _, hitems, t', _, ⟨rfl, ht'⟩, rfl, rfl⟩ := hrun
  obtain ⟨us, rfl, hus, -⟩ := itemsUntil_reads ha h hitems
  exact ⟨t :: (us ++ [t']), by simp, .block ht hus ht', nofun⟩

theorem ifLevel_reads (h : ReadsStmt inner)
    (hrun : ifLevel inner t.pos (t :: ts) = .ok s rest) :
    HasStmt (t :: ts) s rest := by
  simp only [ifLevel, bind_eq_ok_iff, keyword_eq_ok_iff, condition_eq_ok_iff,
    List.cons.injEq] at hrun
  obtain ⟨_, _, ⟨⟨rfl, rfl⟩, ht⟩, cond, _, ⟨us, rfl, hcond⟩, yes, _, hyes, else?, _, helse,
    hrun⟩ := hrun
  obtain ⟨vs, rfl, hvs, hopen⟩ := h hyes
  cases else? with
  | none =>
    obtain ⟨rfl, hnone⟩ := accept_eq_ok_none_iff.1 helse
    obtain ⟨rfl, rfl⟩ := pure_eq_ok_iff.1 hrun
    exact ⟨t :: (us ++ vs), by simp, .ifThen ht hcond hvs, fun _ => hnone⟩
  | some word =>
    obtain ⟨rfl, hword⟩ := accept_eq_ok_some_iff.1 helse
    simp only [bind_eq_ok_iff, pure_eq_ok_iff] at hrun
    obtain ⟨no, _, hno, rfl, rfl⟩ := hrun
    obtain ⟨ws, rfl, hws, hopen'⟩ := h hno
    -- the `else` was there for the inner statement as well
    have hclosed : yes.isOpen = false := by
      rw [Bool.eq_false_iff]
      intro hyes
      have hnone := hopen hyes
      simp [startsElse, hword] at hnone
    exact ⟨t :: (us ++ (vs ++ word :: ws)), by simp,
      .ifElse ht hcond hvs hclosed (by simpa [isKeyword] using hword) hws, hopen'⟩

theorem whileLevel_reads (h : ReadsStmt inner)
    (hrun : whileLevel inner t.pos (t :: ts) = .ok s rest) :
    HasStmt (t :: ts) s rest := by
  simp only [whileLevel, bind_eq_ok_iff, keyword_eq_ok_iff, condition_eq_ok_iff, pure_eq_ok_iff,
    List.cons.injEq] at hrun
  obtain ⟨_, _, ⟨⟨rfl, rfl⟩, ht⟩, cond, _, ⟨us, rfl, hcond⟩, body, _, hbody, rfl, rfl⟩ := hrun
  obtain ⟨vs, rfl, hvs, hopen⟩ := h hbody
  exact ⟨t :: (us ++ vs), by simp, .whileLoop ht hcond hvs, hopen⟩

theorem forLevel_reads (h : ReadsStmt inner)
    (hrun : forLevel inner t.pos (t :: ts) = .ok s rest) :
    HasStmt (t :: ts) s rest := by
  simp only [forLevel, bind_eq_ok_iff, keyword_eq_ok_iff, mark_eq_ok_iff, pure_eq_ok_iff,
    List.cons.injEq] at hrun
  obtain ⟨_, _, ⟨⟨rfl, rfl⟩, ht⟩, open_, _, ⟨rfl, hopen⟩, init, _, hinit, semicolon, _,
    ⟨rfl, hsemicolon⟩, cond, _, hcond, semicolon', _, ⟨rfl, hsemicolon'⟩, step, _, hstep, close, _,
    ⟨rfl, hclose⟩, body, _, hbody, rfl, rfl⟩ := hrun
  obtain ⟨us, rfl, hus⟩ := (exprUnless_mark_iff (by decide) (by decide) hsemicolon).1 hinit
  obtain ⟨vs, rfl, hvs⟩ := (exprUnless_mark_iff (by decide) (by decide) hsemicolon').1 hcond
  obtain ⟨ws, rfl, hws⟩ := (exprUnless_mark_iff (by decide) (by decide) hclose).1 hstep
  obtain ⟨xs, rfl, hxs, hopen'⟩ := h hbody
  exact ⟨_, by simp, .forLoop ht hopen hus hsemicolon hvs hsemicolon' hws hclose hxs, hopen'⟩

theorem returnStmt_reads (hrun : returnStmt t.pos (t :: ts) = .ok s rest) :
    HasStmt (t :: ts) s rest := by
  simp only [returnStmt, bind_eq_ok_iff, keyword_eq_ok_iff, mark_eq_ok_iff, pure_eq_ok_iff,
    List.cons.injEq] at hrun
  obtain ⟨_, _, ⟨⟨rfl, rfl⟩, ht⟩, value, _, hvalue, semicolon, _, ⟨rfl, hsemicolon⟩, rfl,
    rfl⟩ := hrun
  obtain ⟨us, rfl, hus⟩ := (exprUnless_mark_iff (by decide) (by decide) hsemicolon).1 hvalue
  exact ⟨t :: (us ++ [semicolon]), by simp, .ret ht hus hsemicolon, nofun⟩

theorem exprStmt_reads (hrun : exprStmt t.pos (t :: ts) = .ok s rest) :
    HasStmt (t :: ts) s rest := by
  simp only [exprStmt, bind_eq_ok_iff, mark_eq_ok_iff, pure_eq_ok_iff] at hrun
  obtain ⟨e, _, he, semicolon, _, ⟨rfl, hsemicolon⟩, rfl, rfl⟩ := hrun
  obtain ⟨us, hts, hus⟩ := expr_reads he
  obtain ⟨t', us, rfl, -⟩ := hus.begins
  obtain ⟨rfl, rfl⟩ := List.cons.inj hts
  exact ⟨t :: us ++ [semicolon], by simp, .expr hus hsemicolon, nofun⟩

theorem stmtLevel_reads (ha : Advances inner) (h : ReadsStmt inner) :
    ReadsStmt (stmtLevel inner) := by
  intro ts rest s hrun
  simp only [stmtLevel, bind_eq_ok_iff, peek_eq_ok_iff] at hrun
  obtain ⟨t, _, ⟨hfirst, rfl⟩, hrun⟩ := hrun
  obtain ⟨mid, rfl⟩ := List.head?_eq_some_iff.1 hfirst
  cases hform : stmtForm t <;> simp only [hform] at hrun
  case block => exact blockLevel_reads ha h hrun
  case conditional => exact ifLevel_reads h hrun
  case whileLoop => exact whileLevel_reads h hrun
  case forLoop => exact forLevel_reads h hrun
  case ret => exact returnStmt_reads hrun
  case expr => exact exprStmt_reads hrun

end Soundness

theorem stmtWithin_reads : ∀ bound, ReadsStmt (stmtWithin bound)
  | [] => fun _ _ _ h => nomatch h
  | _ :: bound => stmtLevel_reads (stmtWithin_advances bound) (stmtWithin_reads bound)

theorem stmt_reads : ReadsStmt stmt := fun ts _ _ h => stmtWithin_reads ts h

end Parser

namespace Grammar
open WordC.Parser

/-! ### First tokens -/

theorem IsHead.begins {ts : List Token} {constant : Bool} {ty : Ty} {name : String}
    (h : IsHead ts constant ty name) : ∃ t us, ts = t :: us ∧ t.startsDeclaration = true := by
  cases h with
  | plain hty _ =>
    cases hty with
    | @base t base ht | @pointer t _ base ht =>
      exact ⟨t, _, rfl, by cases base <;> simp [Token.startsDeclaration, ht, Base.word]⟩
  | @const word ts name _ hword _ _ =>
    exact ⟨word, _, rfl, by simp [Token.startsDeclaration, hword]⟩

/-- The token can begin a statement that is no declaration. -/
structure BeginsStmt (t : Token) : Prop where
  noDeclaration : t.startsDeclaration = false
  noBrace : isMark .closeBrace t = false
  noSemicolon : isMark .semicolon t = false
  noElse : isKeyword .elseWord t = false

theorem BeginsStmt.of_keyword {t : Token} {k : Keyword} (ht : t.kind = .keyword k)
    (hk : k ∈ [Keyword.ifWord, .whileWord, .forWord, .returnWord, .trueWord, .falseWord]) :
    BeginsStmt t := by
  simp only [List.mem_cons, List.not_mem_nil, or_false] at hk
  rcases hk with rfl | rfl | rfl | rfl | rfl | rfl <;>
    exact ⟨by simp [Token.startsDeclaration, ht], by simp [isMark, ht], by simp [isMark, ht],
      by simp [isKeyword, ht]⟩

theorem BeginsStmt.of_mark {t : Token} {m : Mark} (ht : t.kind = .mark m)
    (hm : m ∉ [Mark.closeBrace, .semicolon]) : BeginsStmt t := by
  simp only [List.mem_cons, List.not_mem_nil, or_false, not_or] at hm
  exact ⟨by simp [Token.startsDeclaration, ht], by simp [isMark, ht, hm.1],
    by simp [isMark, ht, hm.2], by simp [isKeyword, ht]⟩

theorem Level.Begins.beginsStmt {level : Level} {t : Token} (h : level.Begins t) :
    BeginsStmt t ∧ stmtForm t = .expr := by
  rcases h with ⟨_, hatom⟩ | ht | ⟨-, -, m, op, hop, ht⟩
  · cases hatom with
    | yes ht | no ht => exact ⟨.of_keyword ht (by decide), by simp [stmtForm, ht]⟩
    | name ht | number ht | text ht | character ht =>
      exact ⟨⟨by simp [Token.startsDeclaration, ht], by simp [isMark, ht], by simp [isMark, ht],
        by simp [isKeyword, ht]⟩, by simp [stmtForm, ht]⟩
  · exact ⟨.of_mark ht (by decide), by simp [stmtForm, ht]⟩
  · simp only [prefixes, List.mem_cons, Prod.mk.injEq, List.not_mem_nil, or_false] at hop
    rcases hop with ⟨rfl, -⟩ | ⟨rfl, -⟩ | ⟨rfl, -⟩ <;>
      exact ⟨.of_mark ht (by decide), by simp [stmtForm, ht]⟩

theorem IsStmt.begins {ts : List Token} {s : Stmt} (h : IsStmt ts s) :
    ∃ t us, ts = t :: us ∧ BeginsStmt t := by
  cases h with
  | block ht _ _ => exact ⟨_, _, rfl, .of_mark ht (by decide)⟩
  | ifThen ht _ _ | ifElse ht _ _ _ _ _ | whileLoop ht _ _ | forLoop ht _ _ _ _ _ _ _ _
  | ret ht _ _ =>
    exact ⟨_, _, rfl, .of_keyword ht (by decide)⟩
  | expr h _ =>
    obtain ⟨t, us, rfl, hbegins⟩ := h.begins
    exact ⟨t, _, rfl, hbegins.beginsStmt.1⟩

theorem IsItem.begins {ts : List Token} {s : Stmt} (h : IsItem ts s) :
    ∃ t us, ts = t :: us ∧ isMark .closeBrace t = false ∧ isKeyword .elseWord t = false := by
  have hdeclaration {t : Token} (ht : t.startsDeclaration = true) :
      isMark .closeBrace t = false ∧ isKeyword .elseWord t = false := by
    unfold Token.startsDeclaration at ht
    split at ht <;> simp_all [isMark, isKeyword]
  cases h with
  | stmt h =>
    obtain ⟨t, us, rfl, hbegins⟩ := h.begins
    exact ⟨t, us, rfl, hbegins.noBrace, hbegins.noElse⟩
  | var h =>
    cases h with
    | array hhead _ _ _ _ _ | initialized hhead _ _ _ _ | bare hhead _ _ =>
      obtain ⟨t, us, rfl, ht⟩ := hhead.begins
      exact ⟨t, _, rfl, hdeclaration ht⟩
  | prototype hhead _ _ | function hhead _ _ =>
    obtain ⟨t, us, rfl, ht⟩ := hhead.begins
    exact ⟨t, _, rfl, hdeclaration ht⟩

/-! ### Every declaration and statement is read -/

theorem item_of_head {ts mid rest : List Token} {t : Token} {constant : Bool} {ty : Ty}
    {name : String} {s : Stmt} (hhead : IsHead ts constant ty name)
    (hrun : declarator stmt (first ts) constant ty name t (t :: mid) = .ok s rest) :
    item (ts ++ t :: mid) = .ok s rest := by
  have hnext : next Token.startsDeclaration (ts ++ t :: mid) = .ok true (ts ++ t :: mid) := by
    obtain ⟨t, us, rfl, ht⟩ := hhead.begins
    exact next_eq_ok_iff.2 ⟨ht, rfl⟩
  exact (bind_of_ok hnext).trans
    (declarationLevel_eq_ok_iff.2 ⟨ts, constant, ty, name, t, mid, rfl, hhead, hrun⟩)

theorem IsVariable.complete {ts : List Token} {decl : Variable} (h : IsVariable ts decl)
    (rest : List Token) : item (ts ++ rest) = .ok (.var (first ts) decl) rest := by
  cases h with
  | @array ts t size t' semicolon _ elem name count hhead ht hsize hcount ht' hsemicolon =>
    rw [List.append_assoc]
    refine item_of_head hhead ?_
    have hform : declarationForm? t = some .array := by simp [declarationForm?, ht]
    rw [declarator, hform, first_append (by cases hhead <;> simp)]
    exact arrayDeclaration_eq_ok_iff.2 ⟨t, size, t', semicolon, elem, count, rfl, rfl, ht, hsize,
      hcount, ht', hsemicolon, rfl⟩
  | @initialized ts us t semicolon _ ty name init hhead hvoid ht hinit hsemicolon =>
    rw [List.append_assoc]
    refine item_of_head hhead ?_
    have hform : declarationForm? t = some .initialized := by simp [declarationForm?, ht]
    rw [declarator, hform, first_append (by cases hhead <;> simp)]
    exact initializedDeclaration_eq_ok_iff.2 ⟨t, us, semicolon, init, by simp, hvoid, ht, hinit,
      hsemicolon, rfl⟩
  | @bare ts semicolon _ ty name hhead hvoid hsemicolon =>
    rw [List.append_assoc]
    refine item_of_head hhead ?_
    have hform : declarationForm? semicolon = some .bare := by simp [declarationForm?, hsemicolon]
    rw [declarator, hform, first_append (by cases hhead <;> simp)]
    exact bareDeclaration_eq_ok_iff.2 ⟨semicolon, rfl, hvoid, hsemicolon, rfl⟩

theorem IsParams.begins {ts : List Token} {ps : List Param} (h : IsParams ts ps) :
    ∃ t us, ts = t :: us ∧ t.kind = .mark .openParen := by
  cases h with
  | void ht _ _ | empty ht _ | list ht _ _ => exact ⟨_, _, rfl, ht⟩

/-- The head of a function is read if the rest of it is. -/
theorem item_of_function {ts us rest mid : List Token} {constant : Bool} {result : Ty}
    {name : String} {params : List Param} {s : Stmt} (hhead : IsHead ts constant result name)
    (hparams : IsParams us params)
    (hrun : functionLevel stmt (first ts) result name (us ++ mid) = .ok s rest) :
    item (ts ++ (us ++ mid)) = .ok s rest := by
  obtain ⟨t, us, rfl, ht⟩ := hparams.begins
  refine item_of_head hhead ?_
  have hform : declarationForm? t = some .function := by simp [declarationForm?, ht]
  rw [declarator, hform]
  exact hrun

theorem stmt_cons (t : Token) (ts : List Token) :
    stmt (t :: ts) = (match stmtForm t with
      | .block => blockLevel stmt t.pos
      | .conditional => ifLevel stmt t.pos
      | .whileLoop => whileLevel stmt t.pos
      | .forLoop => forLevel stmt t.pos
      | .ret => returnStmt t.pos
      | .expr => exprStmt t.pos) (t :: ts) :=
  congrFun stmt_eq (t :: ts)

mutual

/-- Every statement is read, unless an `else` that follows would become a part of it. -/
theorem IsStmt.complete : ∀ {ts : List Token} {s : Stmt}, IsStmt ts s → ∀ {rest : List Token},
    (s.isOpen = true → startsElse rest = false) → stmt (ts ++ rest) = .ok s rest
  | _, _, @IsStmt.block t t' ts items ht h ht', rest, _ => by
    have hitems :
        itemsUntil (isMark .closeBrace) item (ts ++ t' :: rest) = .ok items (t' :: rest) :=
      h.complete (fun _ hbrace => hbrace) (by simp [isMark, ht'])
        (by simp [startsElse, isKeyword, ht'])
    have hform : stmtForm t = .block := by simp [stmtForm, ht]
    rw [List.cons_append, List.append_assoc, stmt_cons, hform]
    simp only [blockLevel, bind_eq_ok_iff, mark_eq_ok_iff, pure_eq_ok_iff]
    exact ⟨t, _, ⟨rfl, ht⟩, items, _, hitems, t', rest, ⟨rfl, ht'⟩, rfl, rfl⟩
  | _, _, @IsStmt.ifThen t ts us cond yes ht hcond hyes, rest, hrest => by
    have hnone : startsElse rest = false := hrest rfl
    have hform : stmtForm t = .conditional := by simp [stmtForm, ht]
    rw [List.cons_append, List.append_assoc, stmt_cons, hform]
    simp only [ifLevel, bind_eq_ok_iff, keyword_eq_ok_iff, condition_eq_ok_iff]
    exact ⟨t, _, ⟨rfl, ht⟩, cond, us ++ rest, ⟨ts, rfl, hcond⟩, yes, rest,
      hyes.complete fun _ => hnone, none, rest, accept_eq_ok_none_iff.2 ⟨rfl, hnone⟩, rfl⟩
  | _, _, @IsStmt.ifElse t word ts us vs cond yes no ht hcond hyes hclosed hword hno, rest,
    hrest => by
    have hform : stmtForm t = .conditional := by simp [stmtForm, ht]
    rw [List.cons_append, List.append_assoc, List.append_assoc, List.cons_append, stmt_cons, hform]
    simp only [ifLevel, bind_eq_ok_iff, keyword_eq_ok_iff, condition_eq_ok_iff]
    refine ⟨t, _, ⟨rfl, ht⟩, cond, us ++ word :: (vs ++ rest), ⟨ts, rfl, hcond⟩, yes, _,
      hyes.complete fun hopen => ?_, some word, vs ++ rest,
      accept_eq_ok_some_iff.2 ⟨rfl, by simp [isKeyword, hword]⟩, bind_of_ok (hno.complete hrest)⟩
    rw [hclosed] at hopen
    cases hopen
  | _, _, @IsStmt.whileLoop t ts us cond body ht hcond hbody, rest, hrest => by
    have hform : stmtForm t = .whileLoop := by simp [stmtForm, ht]
    rw [List.cons_append, List.append_assoc, stmt_cons, hform]
    simp only [whileLevel, bind_eq_ok_iff, keyword_eq_ok_iff, condition_eq_ok_iff, pure_eq_ok_iff]
    exact ⟨t, _, ⟨rfl, ht⟩, cond, us ++ rest, ⟨ts, rfl, hcond⟩, body, rest, hbody.complete hrest,
      rfl, rfl⟩
  | _, _, @IsStmt.forLoop t open_ semicolon semicolon' close ts us vs ws init cond step body ht
      hopen hinit hsemicolon hcond hsemicolon' hstep hclose hbody, rest, hrest => by
    have hform : stmtForm t = .forLoop := by simp [stmtForm, ht]
    simp only [List.cons_append, List.append_assoc, stmt_cons, hform, forLevel, bind_eq_ok_iff,
      keyword_eq_ok_iff, mark_eq_ok_iff, pure_eq_ok_iff]
    exact ⟨t, _, ⟨rfl, ht⟩, open_, _, ⟨rfl, hopen⟩, init, _,
      (exprUnless_mark_iff (by decide) (by decide) hsemicolon).2 ⟨ts, rfl, hinit⟩, semicolon, _,
      ⟨rfl, hsemicolon⟩, cond, _,
      (exprUnless_mark_iff (by decide) (by decide) hsemicolon').2 ⟨us, rfl, hcond⟩, semicolon', _,
      ⟨rfl, hsemicolon'⟩, step, _,
      (exprUnless_mark_iff (by decide) (by decide) hclose).2 ⟨vs, rfl, hstep⟩, close, _,
      ⟨rfl, hclose⟩, body, rest, hbody.complete hrest, rfl, rfl⟩
  | _, _, @IsStmt.ret t semicolon ts value ht hvalue hsemicolon, rest, _ => by
    have hform : stmtForm t = .ret := by simp [stmtForm, ht]
    rw [List.cons_append, List.append_assoc, stmt_cons, hform]
    simp only [returnStmt, bind_eq_ok_iff, keyword_eq_ok_iff, mark_eq_ok_iff, pure_eq_ok_iff]
    exact ⟨t, _, ⟨rfl, ht⟩, value, _,
      (exprUnless_mark_iff (by decide) (by decide) hsemicolon).2 ⟨ts, rfl, hvalue⟩, semicolon, rest,
      ⟨rfl, hsemicolon⟩, rfl, rfl⟩
  | _, _, @IsStmt.expr semicolon ts e h hsemicolon, rest, _ => by
    obtain ⟨t, us, rfl, hbegins⟩ := h.begins
    have hexpr : expr (t :: (us ++ semicolon :: rest)) = .ok e (semicolon :: rest) :=
      (expr_mark_iff (by decide) hsemicolon).2 ⟨t :: us, rfl, h⟩
    rw [List.append_assoc, List.cons_append, stmt_cons, hbegins.beginsStmt.2]
    simp only [exprStmt, bind_eq_ok_iff, mark_eq_ok_iff, pure_eq_ok_iff]
    exact ⟨e, _, hexpr, semicolon, rest, ⟨rfl, hsemicolon⟩, rfl, rfl⟩

/-- Every declaration or statement is read. -/
theorem IsItem.complete : ∀ {ts : List Token} {s : Stmt}, IsItem ts s → ∀ {rest : List Token},
    startsElse rest = false → item (ts ++ rest) = .ok s rest
  | ts, _, .stmt h, rest, hrest => by
    have hnext : next Token.startsDeclaration (ts ++ rest) = .ok false (ts ++ rest) := by
      obtain ⟨t, us, rfl, hbegins⟩ := h.begins
      exact next_eq_ok_iff.2 ⟨hbegins.noDeclaration, rfl⟩
    exact (bind_of_ok hnext).trans (h.complete fun _ => hrest)
  | _, _, .var h, rest, _ => h.complete rest
  | _, _, @IsItem.prototype ts us semicolon _ result name params hhead hparams hsemicolon, rest,
    _ => by
    rw [List.append_assoc, List.append_assoc]
    refine item_of_function hhead hparams ?_
    simp only [functionLevel, bind_eq_ok_iff, parameters_eq_ok_iff]
    exact ⟨params, _, ⟨us, rfl, hparams⟩, some semicolon, rest,
      accept_eq_ok_some_iff.2 ⟨rfl, by simp [isMark, hsemicolon]⟩, rfl⟩
  | _, _, @IsItem.function ts us vs _ result name params body hhead hparams hbody, rest, hrest => by
    rw [List.append_assoc, List.append_assoc]
    refine item_of_function hhead hparams ?_
    simp only [functionLevel, bind_eq_ok_iff, parameters_eq_ok_iff]
    refine ⟨params, _, ⟨us, rfl, hparams⟩, none, vs ++ rest, accept_eq_ok_none_iff.2 ⟨rfl, ?_⟩,
      bind_of_ok (hbody.complete fun _ => hrest)⟩
    obtain ⟨t, vs, rfl, hbegins⟩ := hbody.begins
    exact hbegins.noSemicolon

theorem IsItems.complete : ∀ {ts : List Token} {ss : List Stmt}, IsItems ts ss →
    ∀ {stop : Token → Bool} {rest : List Token},
    (∀ t, isMark .closeBrace t = false → stop t = false) → rest.head?.all stop = true →
    startsElse rest = false → itemsUntil stop item (ts ++ rest) = .ok ss rest
  | _, _, .nil, stop, rest, _, hstop, _ => by
    cases rest with
    | nil => exact itemsUntil_nil
    | cons t rest => exact itemsUntil_of_stop hstop
  | _, _, @IsItems.cons ts us s ss h hs, stop, rest, hbrace, hstop, hrest => by
    have hothers := hs.complete hbrace hstop hrest
    have hitem : item (ts ++ (us ++ rest)) = .ok s (us ++ rest) := by
      refine h.complete ?_
      cases hs with
      | nil => exact hrest
      | cons h _ =>
        obtain ⟨t, us, rfl, -, helse⟩ := h.begins
        exact helse
    obtain ⟨t, ts, rfl, hnobrace, -⟩ := h.begins
    rw [List.append_assoc]
    refine (itemsUntil_cons item_advances (hbrace t hnobrace)).trans ?_
    exact (bind_of_ok hitem).trans (bind_of_ok hothers)

end

end Grammar

/-! ### Programs -/

namespace Program

theorem ofTokens_eq_ok_iff_run {ts : List Token} {program : Program} :
    ofTokens ts = .ok program ↔ ∃ rest, Parser.program ts = .ok program rest := by
  rw [ofTokens, ofRest]
  cases Parser.program ts <;> simp

/-- A program that was read is one of the grammar. -/
theorem isItems_of_ofTokens {ts : List Token} {program : Program}
    (h : ofTokens ts = .ok program) : IsItems ts program := by
  obtain ⟨rest, hrun⟩ := ofTokens_eq_ok_iff_run.1 h
  obtain ⟨us, rfl, hus, hend⟩ := Parser.itemsUntil_reads Parser.stmt_advances Parser.stmt_reads hrun
  cases rest with
  | nil => rwa [List.append_nil]
  | cons t rest => cases hend

/-- A program of the grammar is read. -/
theorem ofTokens_of_isItems {ts : List Token} {program : Program} (h : IsItems ts program) :
    ofTokens ts = .ok program := by
  have hrun : Parser.program (ts ++ []) = .ok program [] := h.complete (fun _ _ => rfl) rfl rfl
  rw [List.append_nil] at hrun
  exact ofTokens_eq_ok_iff_run.2 ⟨[], hrun⟩

/-- Tokens are read as a program exactly where the grammar derives the program from them. -/
theorem ofTokens_eq_ok_iff_isItems (ts : List Token) (program : Program) :
    ofTokens ts = .ok program ↔ IsItems ts program :=
  ⟨isItems_of_ofTokens, ofTokens_of_isItems⟩

end Program

end WordC
