import WordC.Proofs.Grammar.Stmt
import WordC.Proofs.Printer.Expr

/-!
# Printed programs

A printed program is read back as the same program, up to positions, and no tokens that are read as
it have fewer parentheses: `Program.ofTokens_print`.
-/

namespace WordC
open Grammar

/-! ### Declarations -/

theorem isType_of_elem {elem : Elem} {ts : List Token} (h : ts.map Token.spelling = elem.print) :
    IsType ts elem.ty := by
  cases elem with
  | int =>
    obtain ⟨t, rfl, ht⟩ := List.map_eq_singleton_iff.1 h
    exact @IsType.base t .int (Token.kind_of_spelling ht)
  | char =>
    obtain ⟨t, rfl, ht⟩ := List.map_eq_singleton_iff.1 h
    exact @IsType.base t .char (Token.kind_of_spelling ht)
  | pointer base =>
    obtain ⟨t, us, rfl, ht, hus⟩ := List.map_eq_cons_iff.1 h
    obtain ⟨star, rfl, hstar⟩ := List.map_eq_singleton_iff.1 hus
    exact .pointer (Token.kind_of_spelling ht) (Token.kind_of_spelling hstar)

theorem isType_of_print {ty : Ty} {ts : List Token} (harray : ty.isArray = false)
    (h : ts.map Token.spelling = ty.print) : IsType ts ty := by
  cases ty with
  | void =>
    obtain ⟨t, rfl, ht⟩ := List.map_eq_singleton_iff.1 h
    exact @IsType.base t .void (Token.kind_of_spelling ht)
  | int => exact @isType_of_elem .int ts h
  | char => exact @isType_of_elem .char ts h
  | pointer base => exact @isType_of_elem (.pointer base) ts h
  | array elem count => cases harray

/-- A type and a name. -/
theorem exists_of_printNamed {ty : Ty} {name : String} {ts : List Token}
    (h : ts.map Token.spelling = printNamed ty name) : ∃ us t, ts = us ++ [t] ∧
      us.map Token.spelling = ty.print ∧ t.kind = .identifier ∧ t.text = name := by
  obtain ⟨us, t, rfl, hus, ht⟩ := exists_of_map_spelling_last h
  exact ⟨us, t, rfl, hus, Token.kind_of_spelling ht, Token.text_of_spelling ht⟩

/-- The type in front of the name of a variable: that of the elements for an array. -/
def Ty.front : Ty → Ty
  | .array elem _ => elem.ty
  | ty => ty

theorem isType_front {ty : Ty} {ts : List Token} (h : ts.map Token.spelling = ty.print) :
    IsType ts ty.front := by
  cases ty with
  | array elem count => exact isType_of_elem h
  | void | int | char | pointer => exact isType_of_print rfl h

theorem isHead_of_print {constant : Bool} {ty : Ty} {name : String} {ts : List Token}
    (h : ts.map Token.spelling =
      (if constant then [.keyword .constWord] else []) ++ printNamed ty name) :
    IsHead ts constant ty.front name := by
  cases constant with
  | false =>
    obtain ⟨us, t, rfl, hus, ht, rfl⟩ := exists_of_printNamed h
    exact .plain (isType_front hus) ht
  | true =>
    obtain ⟨word, rest, rfl, hword, hrest⟩ := List.map_eq_cons_iff.1 h
    obtain ⟨us, t, rfl, hus, ht, rfl⟩ := exists_of_printNamed hrest
    exact .const (Token.kind_of_spelling hword) (isType_front hus) ht

theorem isParam_of_print {p : Param} {ts : List Token} (hvoid : p.ty.isVoid = false)
    (harray : p.ty.isArray = false) (h : ts.map Token.spelling = printNamed p.ty p.name) :
    IsParam ts p := by
  obtain ⟨name, ty⟩ := p
  obtain ⟨us, t, rfl, hus, ht, rfl⟩ := exists_of_printNamed h
  exact .mk (isType_of_print harray hus) ht (Ty.isVoid_eq_false_iff.1 hvoid)

theorem isParamList_of_print : ∀ {p : Param} {ps : List Param} {ts : List Token},
    (∀ q ∈ p :: ps, q.ty.isVoid = false ∧ q.ty.isArray = false) →
    ts.map Token.spelling = printParams (p :: ps) → IsParamList ts (p :: ps)
  | p, [], ts, hps, h => by
    rw [printParams, printParamsBehind, List.append_nil] at h
    obtain ⟨hvoid, harray⟩ := hps p List.mem_cons_self
    exact .one (isParam_of_print hvoid harray h)
  | p, q :: ps, ts, hps, h => by
    rw [printParams, printParamsBehind, ← printParams] at h
    rw [List.forall_mem_cons] at hps
    obtain ⟨us, t, vs, rfl, hus, ht, hvs⟩ := exists_of_map_spelling h
    exact .more (isParam_of_print hps.1.1 hps.1.2 hus) (Token.kind_of_spelling ht)
      (isParamList_of_print hps.2 hvs)

theorem isParams_of_print {ps : List Param} {ts : List Token}
    (hps : ∀ q ∈ ps, q.ty.isVoid = false ∧ q.ty.isArray = false)
    (h : ts.map Token.spelling = .mark .openParen :: (printParams ps ++ [.mark .closeParen])) :
    IsParams ts ps := by
  obtain ⟨t, rest, rfl, ht, hrest⟩ := List.map_eq_cons_iff.1 h
  obtain ⟨us, t', rfl, hus, ht'⟩ := exists_of_map_spelling_last hrest
  cases ps with
  | nil =>
    obtain rfl := List.map_eq_nil_iff.1 hus
    exact .empty (Token.kind_of_spelling ht) (Token.kind_of_spelling ht')
  | cons p ps =>
    exact .list (Token.kind_of_spelling ht) (isParamList_of_print hps hus)
      (Token.kind_of_spelling ht')

/-- The tokens of a function head are those of its type and name, and those of its parameters. -/
theorem exists_of_signature {head : Signature} {ts : List Token} (hhead : head.isPrintable = true)
    (h : ts.map Token.spelling = head.print) : ∃ us vs, ts = us ++ vs ∧
      IsHead us false head.result head.name ∧ IsParams vs head.params := by
  simp only [Signature.isPrintable, Bool.and_eq_true, Bool.not_eq_true', List.all_eq_true] at hhead
  obtain ⟨us, vs, rfl, hus, hvs⟩ := List.map_eq_append_iff.1 h
  obtain ⟨ws, t, rfl, hws, ht, hname⟩ := exists_of_printNamed hus
  refine ⟨ws ++ [t], vs, rfl, ?_, isParams_of_print hhead.2 hvs⟩
  rw [← hname]
  exact .plain (isType_of_print hhead.1 hws) ht

/-- The tokens of a variable: its head, the count of an array, the initial value and the end. -/
theorem exists_of_variable {decl : Variable} {ts : List Token}
    (h : ts.map Token.spelling = decl.print) : ∃ us count value semicolon,
      ts = us ++ (count ++ (value ++ [semicolon])) ∧
      IsHead us decl.constant decl.ty.front decl.name ∧
      count.map Token.spelling = decl.ty.printCount ∧
      value.map Token.spelling = Variable.printInit decl.init ∧
      semicolon.kind = .mark .semicolon := by
  obtain ⟨us, rest, rfl, hus, hrest⟩ := List.map_eq_append_iff.1 h
  obtain ⟨count, rest, rfl, hcount, hrest⟩ := List.map_eq_append_iff.1 hrest
  obtain ⟨value, last, rfl, hvalue, hlast⟩ := List.map_eq_append_iff.1 hrest
  obtain ⟨semicolon, rfl, hsemicolon⟩ := List.map_eq_singleton_iff.1 hlast
  exact ⟨us, count, value, semicolon, rfl, isHead_of_print hus, hcount, hvalue,
    Token.kind_of_spelling hsemicolon⟩

theorem derives_expr {e : Expr} (h : e.isPrintable = true) : Derives .assign e.print e :=
  (derives_print e h).weaken (Nat.zero_le _)

/-- A printed variable is derived from its spellings. -/
theorem derives_variable {decl : Variable} (hdecl : decl.isPrintable = true) {ts : List Token}
    (h : ts.map Token.spelling = decl.print) :
    ∃ decl', IsVariable ts decl' ∧ decl'.forget = decl.forget := by
  obtain ⟨us, count, value, semicolon, rfl, hhead, hcount, hvalue, hsemicolon⟩ :=
    exists_of_variable h
  obtain ⟨name, ty, constant, init⟩ := decl
  cases ty with
  | void => cases hdecl
  | array elem size =>
    simp only [Variable.isPrintable, Bool.and_eq_true, decide_eq_true_eq, Option.isNone_iff_eq_none]
      at hdecl
    obtain ⟨⟨hpos, hlt⟩, rfl⟩ := hdecl
    obtain rfl := List.map_eq_nil_iff.1 hvalue
    obtain ⟨t, rest, rfl, ht, hrest⟩ := List.map_eq_cons_iff.1 hcount
    obtain ⟨number, rest, rfl, hnumber, hrest⟩ := List.map_eq_cons_iff.1 hrest
    obtain ⟨t', rfl, ht'⟩ := List.map_eq_singleton_iff.1 hrest
    have hsize : size.toUInt16.toNat = size := UInt16.toNat_ofNat_of_lt' hlt
    have hne : size.toUInt16 ≠ 0 := by
      intro hzero
      rw [hzero] at hsize
      exact absurd hsize.symm (Nat.ne_of_gt hpos)
    have hvariable := IsVariable.array hhead (Token.kind_of_spelling ht)
      (Token.kind_of_spelling hnumber) hne (Token.kind_of_spelling ht') hsemicolon
    rw [hsize] at hvariable
    exact ⟨_, hvariable, rfl⟩
  | int | char | pointer =>
    obtain rfl := List.map_eq_nil_iff.1 hcount
    cases init with
    | none =>
      obtain rfl := List.map_eq_nil_iff.1 hvalue
      exact ⟨_, .bare hhead nofun hsemicolon, rfl⟩
    | some init =>
      obtain ⟨t, vs, rfl, ht, hvs⟩ := List.map_eq_cons_iff.1 hvalue
      obtain ⟨init', hinit', hforget⟩ := derives_expr hdecl vs hvs
      refine ⟨_, .initialized hhead nofun (Token.kind_of_spelling ht) hinit' hsemicolon, ?_⟩
      simp [Variable.forget, hforget, Ty.front]

/-! ### Statements -/

/-- From tokens that are spelled this way, the grammar derives the statement up to positions. -/
def DerivesStmt (words : List Spelling) (stmt : Stmt) : Prop :=
  ∀ ts, ts.map Token.spelling = words → ∃ stmt', IsStmt ts stmt' ∧ stmt'.forget = stmt.forget

/-- The same for a declaration or statement. -/
def DerivesItem (words : List Spelling) (stmt : Stmt) : Prop :=
  ∀ ts, ts.map Token.spelling = words → ∃ stmt', IsItem ts stmt' ∧ stmt'.forget = stmt.forget

/-- The same for a list of them. -/
def DerivesItems (words : List Spelling) (items : List Stmt) : Prop :=
  ∀ ts, ts.map Token.spelling = words →
    ∃ items', IsItems ts items' ∧ Stmt.forgetAll items' = Stmt.forgetAll items

theorem derives_condition {cond : Expr} (h : cond.isPrintable = true) {ts : List Token}
    (hts : ts.map Token.spelling = Stmt.printCondition cond) :
    ∃ cond', IsCondition ts cond' ∧ cond'.forget = cond.forget := by
  obtain ⟨t, rest, rfl, ht, hrest⟩ := List.map_eq_cons_iff.1 hts
  obtain ⟨us, t', rfl, hus, ht'⟩ := exists_of_map_spelling_last hrest
  obtain ⟨cond', hcond', hforget⟩ := derives_expr h us hus
  exact ⟨cond', .mk (Token.kind_of_spelling ht) hcond' (Token.kind_of_spelling ht'), hforget⟩

theorem derives_optional {e : Option Expr} (h : Expr.isPrintable? e = true) {ts : List Token}
    (hts : ts.map Token.spelling = Expr.print? e) :
    ∃ e', IsOptional ts e' ∧ e'.map Expr.forget = e.map Expr.forget := by
  cases e with
  | none =>
    obtain rfl := List.map_eq_nil_iff.1 hts
    exact ⟨none, .none, rfl⟩
  | some e =>
    obtain ⟨e', he', hforget⟩ := derives_expr h ts hts
    exact ⟨some e', .some he', by simp [hforget]⟩

theorem Stmt.isOpen_forget : ∀ stmt : Stmt, stmt.forget.isOpen = stmt.isOpen
  | .ifElse .. | .whileLoop .. | .forLoop .. => by simp [forget, isOpen, isOpen_forget]
  | .block .. | .expr .. | .ret .. | .var .. | .prototype .. | .function .. | .ifThen .. => by
    simp [forget, isOpen]

namespace DerivesStmt

variable {words words' : List Spelling} {pos : Position} {cond : Expr} {yes no body : Stmt}

theorem block {items : List Stmt} (h : DerivesItems words items) :
    DerivesStmt (.mark .openBrace :: (words ++ [.mark .closeBrace])) (.block pos items) := by
  intro ts hts
  obtain ⟨t, rest, rfl, ht, hrest⟩ := List.map_eq_cons_iff.1 hts
  obtain ⟨us, t', rfl, hus, ht'⟩ := exists_of_map_spelling_last hrest
  obtain ⟨items', hitems', hforget⟩ := h us hus
  refine ⟨_, .block (Token.kind_of_spelling ht) hitems' (Token.kind_of_spelling ht'), ?_⟩
  simp [Stmt.forget, hforget]

theorem expr {e : Expr} (he : e.isPrintable = true) :
    DerivesStmt (e.print ++ [.mark .semicolon]) (.expr pos e) := by
  intro ts hts
  obtain ⟨us, t, rfl, hus, ht⟩ := exists_of_map_spelling_last hts
  obtain ⟨e', he', hforget⟩ := derives_expr he us hus
  exact ⟨_, .expr he' (Token.kind_of_spelling ht), by simp [Stmt.forget, hforget]⟩

theorem ifThen (hcond : cond.isPrintable = true) (hyes : DerivesStmt words yes) :
    DerivesStmt (.keyword .ifWord :: (Stmt.printCondition cond ++ words))
      (.ifThen pos cond yes) := by
  intro ts hts
  obtain ⟨t, rest, rfl, ht, hrest⟩ := List.map_eq_cons_iff.1 hts
  obtain ⟨us, vs, rfl, hus, hvs⟩ := List.map_eq_append_iff.1 hrest
  obtain ⟨cond', hcond', hforget⟩ := derives_condition hcond hus
  obtain ⟨yes', hyes', hforget'⟩ := hyes vs hvs
  refine ⟨_, .ifThen (Token.kind_of_spelling ht) hcond' hyes', ?_⟩
  simp [Stmt.forget, hforget, hforget']

theorem ifElse (hcond : cond.isPrintable = true) (hyes : DerivesStmt words yes)
    (hclosed : yes.isOpen = false) (hno : DerivesStmt words' no) :
    DerivesStmt (.keyword .ifWord :: (Stmt.printCondition cond ++
      (words ++ .keyword .elseWord :: words'))) (.ifElse pos cond yes no) := by
  intro ts hts
  obtain ⟨t, rest, rfl, ht, hrest⟩ := List.map_eq_cons_iff.1 hts
  obtain ⟨us, rest, rfl, hus, hrest⟩ := List.map_eq_append_iff.1 hrest
  obtain ⟨vs, t', ws, rfl, hvs, ht', hws⟩ := exists_of_map_spelling hrest
  obtain ⟨cond', hcond', hforget⟩ := derives_condition hcond hus
  obtain ⟨yes', hyes', hforgetYes⟩ := hyes vs hvs
  obtain ⟨no', hno', hforgetNo⟩ := hno ws hws
  have hclosed' : yes'.isOpen = false := by
    rw [← Stmt.isOpen_forget, hforgetYes, Stmt.isOpen_forget, hclosed]
  refine ⟨_, .ifElse (Token.kind_of_spelling ht) hcond' hyes' hclosed'
    (Token.kind_of_spelling ht') hno', ?_⟩
  simp [Stmt.forget, hforget, hforgetYes, hforgetNo]

theorem whileLoop (hcond : cond.isPrintable = true) (hbody : DerivesStmt words body) :
    DerivesStmt (.keyword .whileWord :: (Stmt.printCondition cond ++ words))
      (.whileLoop pos cond body) := by
  intro ts hts
  obtain ⟨t, rest, rfl, ht, hrest⟩ := List.map_eq_cons_iff.1 hts
  obtain ⟨us, vs, rfl, hus, hvs⟩ := List.map_eq_append_iff.1 hrest
  obtain ⟨cond', hcond', hforget⟩ := derives_condition hcond hus
  obtain ⟨body', hbody', hforget'⟩ := hbody vs hvs
  refine ⟨_, .whileLoop (Token.kind_of_spelling ht) hcond' hbody', ?_⟩
  simp [Stmt.forget, hforget, hforget']

theorem forLoop {init cond step : Option Expr} (hinit : Expr.isPrintable? init = true)
    (hcond : Expr.isPrintable? cond = true) (hstep : Expr.isPrintable? step = true)
    (hbody : DerivesStmt words body) :
    DerivesStmt (.keyword .forWord :: .mark .openParen :: (Expr.print? init ++ .mark .semicolon ::
      (Expr.print? cond ++ .mark .semicolon :: (Expr.print? step ++ .mark .closeParen :: words))))
      (.forLoop pos init cond step body) := by
  intro ts hts
  obtain ⟨t, rest, rfl, ht, hrest⟩ := List.map_eq_cons_iff.1 hts
  obtain ⟨open_, rest, rfl, hopen, hrest⟩ := List.map_eq_cons_iff.1 hrest
  obtain ⟨us, semicolon, rest, rfl, hus, hsemicolon, hrest⟩ := exists_of_map_spelling hrest
  obtain ⟨vs, semicolon', rest, rfl, hvs, hsemicolon', hrest⟩ := exists_of_map_spelling hrest
  obtain ⟨ws, close, rest, rfl, hws, hclose, hrest⟩ := exists_of_map_spelling hrest
  obtain ⟨init', hinit', hforgetInit⟩ := derives_optional hinit hus
  obtain ⟨cond', hcond', hforgetCond⟩ := derives_optional hcond hvs
  obtain ⟨step', hstep', hforgetStep⟩ := derives_optional hstep hws
  obtain ⟨body', hbody', hforgetBody⟩ := hbody rest hrest
  refine ⟨_, .forLoop (Token.kind_of_spelling ht) (Token.kind_of_spelling hopen) hinit'
    (Token.kind_of_spelling hsemicolon) hcond' (Token.kind_of_spelling hsemicolon') hstep'
    (Token.kind_of_spelling hclose) hbody', ?_⟩
  simp [Stmt.forget, hforgetInit, hforgetCond, hforgetStep, hforgetBody]

theorem ret {value : Option Expr} (hvalue : Expr.isPrintable? value = true) :
    DerivesStmt (.keyword .returnWord :: (Expr.print? value ++ [.mark .semicolon]))
      (.ret pos value) := by
  intro ts hts
  obtain ⟨t, rest, rfl, ht, hrest⟩ := List.map_eq_cons_iff.1 hts
  obtain ⟨us, semicolon, rfl, hus, hsemicolon⟩ := exists_of_map_spelling_last hrest
  obtain ⟨value', hvalue', hforget⟩ := derives_optional hvalue hus
  refine ⟨_, .ret (Token.kind_of_spelling ht) hvalue' (Token.kind_of_spelling hsemicolon), ?_⟩
  simp [Stmt.forget, hforget]

end DerivesStmt

theorem derivesItem_var {decl : Variable} (h : decl.isPrintable = true) (pos : Position) :
    DerivesItem decl.print (.var pos decl) := by
  intro ts hts
  obtain ⟨decl', hdecl', hforget⟩ := derives_variable h hts
  exact ⟨_, .var hdecl', by simp [Stmt.forget, hforget]⟩

theorem derivesItem_prototype {head : Signature} (h : head.isPrintable = true) (pos : Position) :
    DerivesItem (head.print ++ [.mark .semicolon]) (.prototype pos head) := by
  intro ts hts
  obtain ⟨rest, semicolon, rfl, hrest, hsemicolon⟩ := exists_of_map_spelling_last hts
  obtain ⟨us, vs, rfl, hhead, hparams⟩ := exists_of_signature h hrest
  rw [List.append_assoc]
  exact ⟨_, .prototype hhead hparams (Token.kind_of_spelling hsemicolon), by simp [Stmt.forget]⟩

theorem derivesItem_function {head : Signature} {body : Stmt} {words : List Spelling}
    (h : head.isPrintable = true) (hbody : DerivesStmt words body) (pos : Position) :
    DerivesItem (head.print ++ words) (.function pos head body) := by
  intro ts hts
  obtain ⟨rest, ws, rfl, hrest, hws⟩ := List.map_eq_append_iff.1 hts
  obtain ⟨us, vs, rfl, hhead, hparams⟩ := exists_of_signature h hrest
  obtain ⟨body', hbody', hforget⟩ := hbody ws hws
  rw [List.append_assoc]
  exact ⟨_, .function hhead hparams hbody', by simp [Stmt.forget, hforget]⟩

theorem derivesItems_cons {item : Stmt} {items : List Stmt} {words words' : List Spelling}
    (h : DerivesItem words item) (hs : DerivesItems words' items) :
    DerivesItems (words ++ words') (item :: items) := by
  intro ts hts
  obtain ⟨us, vs, rfl, hus, hvs⟩ := List.map_eq_append_iff.1 hts
  obtain ⟨item', hitem', hforget⟩ := h us hus
  obtain ⟨items', hitems', hforget'⟩ := hs vs hvs
  exact ⟨_, .cons hitem' hitems', by simp [Stmt.forgetAll, hforget, hforget']⟩

/-- A statement proper is also an item. -/
theorem DerivesStmt.both {stmt : Stmt} {words : List Spelling} (h : DerivesStmt words stmt) :
    DerivesItem words stmt ∧ (stmt.isDeclaration = false → DerivesStmt words stmt) := by
  refine ⟨fun ts hts => ?_, fun _ => h⟩
  obtain ⟨stmt', hstmt', hforget⟩ := h ts hts
  exact ⟨stmt', .stmt hstmt', hforget⟩

mutual

/-- A printed statement is derived from its spellings, and that as a statement proper unless it is a
declaration. -/
theorem derives_stmt : ∀ stmt : Stmt, stmt.isPrintable = true → DerivesItem stmt.print stmt ∧
    (stmt.isDeclaration = false → DerivesStmt stmt.print stmt)
  | .var pos decl, h => by
    rw [Stmt.isPrintable] at h
    rw [Stmt.print]
    exact ⟨derivesItem_var h pos, nofun⟩
  | .prototype pos head, h => by
    rw [Stmt.isPrintable] at h
    rw [Stmt.print]
    exact ⟨derivesItem_prototype h pos, nofun⟩
  | .function pos head body, h => by
    simp only [Stmt.isPrintable, Bool.and_eq_true, Bool.not_eq_true'] at h
    rw [Stmt.print]
    exact ⟨derivesItem_function h.1 ((derives_stmt body h.2.2).2 h.2.1) pos, nofun⟩
  | .block pos items, h => by
    rw [Stmt.isPrintable] at h
    rw [Stmt.print]
    exact (DerivesStmt.block (derives_items items h)).both
  | .expr pos e, h => by
    rw [Stmt.isPrintable] at h
    rw [Stmt.print]
    exact (DerivesStmt.expr h).both
  | .ifThen pos cond yes, h => by
    simp only [Stmt.isPrintable, Bool.and_eq_true, Bool.not_eq_true'] at h
    rw [Stmt.print]
    exact (DerivesStmt.ifThen h.1 ((derives_stmt yes h.2.2).2 h.2.1)).both
  | .ifElse pos cond yes no, h => by
    simp only [Stmt.isPrintable, Bool.and_eq_true, Bool.not_eq_true'] at h
    obtain ⟨⟨⟨hcond, hyes⟩, hclosed⟩, hno⟩ := h
    have hyes' := (derives_stmt yes hyes.2).2 hyes.1
    have hno' := (derives_stmt no hno.2).2 hno.1
    rw [Stmt.print]
    exact (DerivesStmt.ifElse hcond hyes' hclosed hno').both
  | .whileLoop pos cond body, h => by
    simp only [Stmt.isPrintable, Bool.and_eq_true, Bool.not_eq_true'] at h
    rw [Stmt.print]
    exact (DerivesStmt.whileLoop h.1 ((derives_stmt body h.2.2).2 h.2.1)).both
  | .forLoop pos init cond step body, h => by
    simp only [Stmt.isPrintable, Bool.and_eq_true, Bool.not_eq_true'] at h
    obtain ⟨⟨⟨hinit, hcond⟩, hstep⟩, hbody⟩ := h
    rw [Stmt.print]
    exact (DerivesStmt.forLoop hinit hcond hstep ((derives_stmt body hbody.2).2 hbody.1)).both
  | .ret pos value, h => by
    rw [Stmt.isPrintable] at h
    rw [Stmt.print]
    exact (DerivesStmt.ret h).both

/-- Printed statements and declarations are derived from their spellings. -/
theorem derives_items : ∀ items : List Stmt, Stmt.arePrintable items = true →
    DerivesItems (Stmt.printAll items) items
  | [], _ => by
    intro ts hts
    obtain rfl := List.map_eq_nil_iff.1 hts
    exact ⟨[], .nil, rfl⟩
  | item :: items, h => by
    rw [Stmt.arePrintable, Bool.and_eq_true] at h
    rw [Stmt.printAll]
    exact derivesItems_cons (derives_stmt item h.1).1 (derives_items items h.2)

end

/-! ### The parentheses are needed -/

theorem parens_append (words words' : List Spelling) :
    parens (words ++ words') = parens words + parens words' := List.countP_append

theorem parens_printNamed (ty : Ty) (name : String) : parens (printNamed ty name) = 0 := by
  have helem (elem : Elem) : parens elem.print = 0 := by cases elem <;> rfl
  have hty : parens ty.print = 0 := by
    cases ty with
    | array elem => exact helem elem
    | void | int | char | pointer => rfl
  rw [printNamed, parens_append, hty]
  rfl

theorem parens_printParams (ps : List Param) : parens (printParams ps) = 0 := by
  have hbehind : ∀ ps : List Param, parens (printParamsBehind ps) = 0 := by
    intro ps
    induction ps with
    | nil => rfl
    | cons p ps ih =>
      have hrest : parens (printNamed p.ty p.name ++ printParamsBehind ps) = 0 := by
        rw [parens_append, parens_printNamed, ih]
      exact hrest
  cases ps with
  | nil => rfl
  | cons p ps => rw [printParams, parens_append, parens_printNamed, hbehind]

/-- A variable has only the parentheses of its initial value. -/
theorem parens_variable (decl : Variable) : parens decl.print = parens (Expr.print? decl.init) := by
  have hconst : parens (if decl.constant then [.keyword .constWord] else []) = 0 := by
    split <;> rfl
  have hcount : parens decl.ty.printCount = 0 := by cases decl.ty <;> rfl
  have hinit : parens (Variable.printInit decl.init) = parens (Expr.print? decl.init) := by
    cases decl.init <;> rfl
  have hend : parens [.mark .semicolon] = 0 := rfl
  rw [Variable.print, parens_append, parens_append, parens_append, parens_append, hconst,
    parens_printNamed, hcount, hinit, hend]
  omega

namespace Grammar

variable {ts : List Token}

theorem IsParams.parens_le {ps : List Param} (h : IsParams ts ps) :
    ParensLe (.mark .openParen :: (printParams ps ++ [.mark .closeParen])) ts := by
  have hzero (ps : List Param) : parens (printParams ps ++ [.mark .closeParen]) = 0 := by
    rw [parens_append, parens_printParams]
    rfl
  cases h with
  | void ht _ _ | empty ht _ | list ht _ _ => exact .cons ht (.of_eq_zero (hzero _) _)

theorem IsVariable.parens_le {decl : Variable} (h : IsVariable ts decl) :
    ParensLe decl.print ts := by
  rw [ParensLe, parens_variable]
  cases h with
  | array | bare => exact Nat.zero_le _
  | @initialized ts us t semicolon _ _ _ init _ _ _ hinit _ =>
    have hle := hinit.parens_le
    rw [enclose_assign] at hle
    have hsub : us.Sublist (ts ++ t :: (us ++ [semicolon])) :=
      ((List.sublist_append_left us [semicolon]).cons t).trans (List.sublist_append_right ts _)
    exact hle.of_sublist hsub

theorem IsCondition.parens_le {cond : Expr} (h : IsCondition ts cond) :
    ParensLe (Stmt.printCondition cond) ts := by
  cases h with
  | mk ht h ht' =>
    have hle := h.parens_le
    rw [enclose_assign] at hle
    exact .cons ht (hle.append (.cons ht' (.nil [])))

theorem IsOptional.parens_le {e : Option Expr} (h : IsOptional ts e) :
    ParensLe (Expr.print? e) ts := by
  cases h with
  | none => exact .nil []
  | some h =>
    have hle := h.parens_le
    rwa [enclose_assign] at hle

mutual

/-- No tokens of a statement have fewer parentheses than are printed. -/
theorem IsStmt.parens_le : ∀ {ts : List Token} {stmt : Stmt}, IsStmt ts stmt →
    ParensLe stmt.print ts
  | _, _, .block ht h ht' => by
    rw [Stmt.print]
    exact .cons ht (h.parens_le.append (.cons ht' (.nil [])))
  | _, _, .ifThen ht hcond hyes => by
    rw [Stmt.print]
    exact .cons ht (hcond.parens_le.append hyes.parens_le)
  | _, _, .ifElse ht hcond hyes _ ht' hno => by
    rw [Stmt.print]
    exact .cons ht (hcond.parens_le.append (hyes.parens_le.append (.cons ht' hno.parens_le)))
  | _, _, .whileLoop ht hcond hbody => by
    rw [Stmt.print]
    exact .cons ht (hcond.parens_le.append hbody.parens_le)
  | _, _, .forLoop ht hopen hinit hsemicolon hcond hsemicolon' hstep hclose hbody => by
    rw [Stmt.print]
    refine .cons ht (.cons hopen (hinit.parens_le.append (.cons hsemicolon ?_)))
    refine hcond.parens_le.append (.cons hsemicolon' ?_)
    exact hstep.parens_le.append (.cons hclose hbody.parens_le)
  | _, _, .ret ht hvalue hsemicolon => by
    rw [Stmt.print]
    exact .cons ht (hvalue.parens_le.append (.cons hsemicolon (.nil [])))
  | _, _, .expr h hsemicolon => by
    have hle := h.parens_le
    rw [enclose_assign] at hle
    rw [Stmt.print]
    exact hle.append (.cons hsemicolon (.nil []))

theorem IsItem.parens_le : ∀ {ts : List Token} {item : Stmt}, IsItem ts item →
    ParensLe item.print ts
  | _, _, .stmt h => h.parens_le
  | _, _, .var h => by
    rw [Stmt.print]
    exact h.parens_le
  | _, _, .prototype _ hparams hsemicolon => by
    rw [Stmt.print, Signature.print, List.append_assoc]
    exact (ParensLe.of_eq_zero (parens_printNamed _ _) _).append
      (hparams.parens_le.append (.cons hsemicolon (.nil [])))
  | _, _, .function _ hparams hbody => by
    rw [Stmt.print, Signature.print, List.append_assoc]
    exact (ParensLe.of_eq_zero (parens_printNamed _ _) _).append
      (hparams.parens_le.append hbody.parens_le)

theorem IsItems.parens_le : ∀ {ts : List Token} {items : List Stmt}, IsItems ts items →
    ParensLe (Stmt.printAll items) ts
  | _, _, .nil => .nil []
  | _, _, .cons h hs => by
    rw [Stmt.printAll]
    exact h.parens_le.append hs.parens_le

end

end Grammar

/-! ### Programs -/

namespace Stmt

theorem print?_map_forget (e : Option Expr) : Expr.print? (e.map Expr.forget) = Expr.print? e := by
  cases e <;> simp [Expr.print?, Expr.print_forget]

theorem print_variable_forget (decl : Variable) : decl.forget.print = decl.print := by
  cases hinit : decl.init <;>
    simp [Variable.forget, Variable.print, Variable.printInit, hinit, Expr.print_forget]

mutual

theorem print_forget : ∀ stmt : Stmt, stmt.forget.print = stmt.print
  | .var .. => by simp [forget, print, print_variable_forget]
  | .prototype .. => by simp [forget, print]
  | .function .. => by simp [forget, print, print_forget]
  | .block .. => by simp [forget, print, printAll_forgetAll]
  | .expr .. => by simp [forget, print, Expr.print_forget]
  | .ifThen .. | .ifElse .. | .whileLoop .. => by
    simp [forget, print, printCondition, Expr.print_forget, print_forget]
  | .forLoop .. => by simp [forget, print, print?_map_forget, print_forget]
  | .ret .. => by simp [forget, print, print?_map_forget]

theorem printAll_forgetAll : ∀ items : List Stmt, printAll (forgetAll items) = printAll items
  | [] => by simp [forgetAll]
  | item :: items => by simp [forgetAll, printAll, print_forget, printAll_forgetAll]

end

end Stmt

/-- A printed program is read back, wherever its tokens are, as the same program up to positions.
No tokens that are read as it have fewer parentheses. -/
theorem Program.ofTokens_print (program : Program) (h : Stmt.arePrintable program = true) :
    (∀ tokens : List Token, tokens.map Token.spelling = Stmt.printAll program →
      ∃ program', Program.ofTokens tokens = .ok program' ∧
        Stmt.forgetAll program' = Stmt.forgetAll program) ∧
    (∀ (tokens : List Token) (program' : Program), Program.ofTokens tokens = .ok program' →
      Stmt.forgetAll program' = Stmt.forgetAll program →
        parens (Stmt.printAll program) ≤ parens (tokens.map Token.spelling)) := by
  constructor
  · intro tokens htokens
    obtain ⟨program', hprogram', hforget⟩ := derives_items program h tokens htokens
    exact ⟨program', ofTokens_of_isItems hprogram', hforget⟩
  · intro tokens program' hread hforget
    rw [← Stmt.printAll_forgetAll, ← hforget, Stmt.printAll_forgetAll]
    exact (isItems_of_ofTokens hread).parens_le

/-- Parentheses around a sum, a weaker operand on the right, a nested disjunction, and an `if`
inside the branches of another. -/
def printSample : Program :=
  let x : Expr := .name default "x"
  let two : Expr := .number default 2
  let sum : Expr := .binary default .add x two
  let deep : Expr := .binary default .sub x (.unary default .neg (.binary default .mul sum sum))
  let choice : Expr :=
    .logical default .or [.logical default .or [x, two], .logical default .and [x, deep]]
  [.var default ⟨"x", .array (.pointer .char) 3, true, none⟩,
   .function default ⟨"f", .void, [⟨"a", .int⟩, ⟨"b", .pointer .void⟩]⟩
     (.block default
       [.ifElse default choice (.ifElse default x (.ret default none) (.block default []))
          (.ifThen default (.assign default x (.assign default x two)) (.ret default (some deep))),
        .expr default (.call default (.call default x []) [sum, .assign default x two])])]

theorem Program.ofTokens_print_sample :
    let tokens : List Token := (Stmt.printAll printSample).map fun s => ⟨s.kind, s.text, default⟩
    Stmt.arePrintable printSample = true ∧ parens (tokens.map Token.spelling) = 13 ∧
      ∃ program', Program.ofTokens tokens = .ok program' ∧
        Stmt.forgetAll program' = Stmt.forgetAll printSample := by
  intro tokens
  have hprintable : Stmt.arePrintable printSample = true := by decide +kernel
  have htokens : tokens.map Token.spelling = Stmt.printAll printSample := by
    simp [tokens, Function.comp_def, Token.spelling]
  exact ⟨hprintable, by rw [htokens]; decide +kernel,
    (Program.ofTokens_print printSample hprintable).1 tokens htokens⟩

end WordC
