import WordC.Parser.Stmt
import WordC.Proofs.Parser.Basic

/-!
# The parsers of the language

Every parser of the language takes a token where it succeeds, and none takes one back
(`expr_advances`, `stmt_advances`). So what stands inside parentheses, or inside a statement, has
fewer tokens than the whole, and the bound on the nesting drops out:

* `expr_eq`: an expression is an assignment with expressions inside its parentheses;
* `stmt_eq`: a statement has statements inside.
-/

namespace WordC.Parser

/-! ### Expressions -/

section Levels

variable {inner inner' : Parser Expr} {n : Nat}

theorem primaryLevel_advances (h : Consumes inner) : Advances (primaryLevel inner) := by
  refine .bind (.token _) fun t => ?_
  cases atom? t with
  | some e => exact .pure e
  | none =>
    refine .ite (h.bind fun e => ?_) (.refuse t _)
    exact .bind (Advances.mark _).consumes fun _ => .pure e

theorem arguments_consumes (h : Consumes inner) : Consumes (arguments inner) :=
  .bind (.commaList h) fun args => .bind (Advances.mark _).consumes fun _ => .pure args

theorem callLevel_advances (h : Consumes inner) : Advances (callLevel inner) :=
  .bind (primaryLevel_advances h) fun _ =>
    .bind (.many _ fun _ => arguments_consumes h) fun _ => .pure _

theorem prefixes_consumes : Consumes (many prefixOp? pure) := .many _ fun w => .pure w

theorem unaryLevel_advances (h : Consumes inner) : Advances (unaryLevel inner) :=
  .after prefixes_consumes fun _ => .bind (callLevel_advances h) fun _ => .pure _

/-- The operand behind an operator, with the operator. -/
theorem operand_consumes {operand : Parser Expr} (h : Consumes operand) (op : BinaryOp) :
    Consumes (do
      let e ← operand
      pure (op, e)) :=
  .bind h fun _ => .pure _

theorem leftChain_advances (op? : Token → Option BinaryOp) {operand : Parser Expr}
    (h : Advances operand) : Advances (leftChain op? operand) :=
  .bind h fun _ => .bind (.many _ fun op => operand_consumes h.consumes op) fun _ => .pure _

theorem logicalChain_advances (m : Mark) (op : LogicalOp) {operand : Parser Expr}
    (h : Advances operand) : Advances (logicalChain m op operand) :=
  .bind h fun _ => .bind (.many _ fun _ => h.consumes) fun _ => .pure _

theorem assignChain_advances {operand : Parser Expr} (h : Advances operand) :
    Advances (assignChain operand) :=
  .bind h fun _ => .bind (.many _ fun _ => h.consumes) fun _ => .pure _

theorem productLevel_advances (h : Consumes inner) : Advances (productLevel inner) :=
  leftChain_advances _ (unaryLevel_advances h)

theorem sumLevel_advances (h : Consumes inner) : Advances (sumLevel inner) :=
  leftChain_advances _ (productLevel_advances h)

theorem relationLevel_advances (h : Consumes inner) : Advances (relationLevel inner) :=
  leftChain_advances _ (sumLevel_advances h)

theorem equalityLevel_advances (h : Consumes inner) : Advances (equalityLevel inner) :=
  leftChain_advances _ (relationLevel_advances h)

theorem andLevel_advances (h : Consumes inner) : Advances (andLevel inner) :=
  logicalChain_advances _ _ (equalityLevel_advances h)

theorem orLevel_advances (h : Consumes inner) : Advances (orLevel inner) :=
  logicalChain_advances _ _ (andLevel_advances h)

theorem assignLevel_advances (h : Consumes inner) : Advances (assignLevel inner) :=
  assignChain_advances (orLevel_advances h)

/-! What is inside parentheses has at least one token less. -/

theorem primaryLevel_agree (hc : Consumes inner) (h : AgreeBelow n inner inner') :
    AgreeBelow (n + 1) (primaryLevel inner) (primaryLevel inner') := by
  refine .after (.token _) fun t => ?_
  cases atom? t with
  | some e => exact .refl _
  | none => exact .ite (.bind h hc fun _ => .refl _) (.refl _)

theorem callLevel_agree (hc : Consumes inner) (h : AgreeBelow n inner inner') :
    AgreeBelow (n + 1) (callLevel inner) (callLevel inner') := by
  refine .bind (primaryLevel_agree hc h) (primaryLevel_advances hc).consumes fun _ => ?_
  have harguments : AgreeBelow n (arguments inner) (arguments inner') :=
    .bind (.commaList hc h) (.commaList hc) fun _ => .refl _
  exact .bind (.many _ (fun _ => arguments_consumes hc) fun _ => harguments)
    (.many _ fun _ => arguments_consumes hc) fun _ => .refl _

theorem unaryLevel_agree (hc : Consumes inner) (h : AgreeBelow n inner inner') :
    AgreeBelow (n + 1) (unaryLevel inner) (unaryLevel inner') :=
  .bind (.refl _) prefixes_consumes fun _ =>
    .bind (callLevel_agree hc h) (callLevel_advances hc).consumes fun _ => .refl _

theorem leftChain_agree (op? : Token → Option BinaryOp) {operand operand' : Parser Expr}
    (ha : Advances operand) (h : AgreeBelow (n + 1) operand operand') :
    AgreeBelow (n + 1) (leftChain op? operand) (leftChain op? operand') := by
  refine .bind h ha.consumes fun _ => ?_
  have hround (op : BinaryOp) : AgreeBelow n
      (do
        let e ← operand
        pure (op, e))
      (do
        let e ← operand'
        pure (op, e)) :=
    .bind (h.mono (Nat.le_succ n)) ha.consumes fun _ => .refl _
  exact .bind (.many _ (operand_consumes ha.consumes) hround)
    (.many _ (operand_consumes ha.consumes)) fun _ => .refl _

theorem logicalChain_agree (m : Mark) (op : LogicalOp) {operand operand' : Parser Expr}
    (ha : Advances operand) (h : AgreeBelow (n + 1) operand operand') :
    AgreeBelow (n + 1) (logicalChain m op operand) (logicalChain m op operand') :=
  .bind h ha.consumes fun _ =>
    .bind (.many _ (fun _ => ha.consumes) fun _ => h.mono (Nat.le_succ n))
      (.many _ fun _ => ha.consumes) fun _ => .refl _

theorem assignChain_agree {operand operand' : Parser Expr} (ha : Advances operand)
    (h : AgreeBelow (n + 1) operand operand') :
    AgreeBelow (n + 1) (assignChain operand) (assignChain operand') :=
  .bind h ha.consumes fun _ =>
    .bind (.many _ (fun _ => ha.consumes) fun _ => h.mono (Nat.le_succ n))
      (.many _ fun _ => ha.consumes) fun _ => .refl _

theorem assignLevel_agree (hc : Consumes inner) (h : AgreeBelow n inner inner') :
    AgreeBelow (n + 1) (assignLevel inner) (assignLevel inner') := by
  have hproduct : AgreeBelow (n + 1) (productLevel inner) (productLevel inner') :=
    leftChain_agree _ (unaryLevel_advances hc) (unaryLevel_agree hc h)
  have hsum : AgreeBelow (n + 1) (sumLevel inner) (sumLevel inner') :=
    leftChain_agree _ (productLevel_advances hc) hproduct
  have hrelation : AgreeBelow (n + 1) (relationLevel inner) (relationLevel inner') :=
    leftChain_agree _ (sumLevel_advances hc) hsum
  have hequality : AgreeBelow (n + 1) (equalityLevel inner) (equalityLevel inner') :=
    leftChain_agree _ (relationLevel_advances hc) hrelation
  have hand : AgreeBelow (n + 1) (andLevel inner) (andLevel inner') :=
    logicalChain_agree _ _ (equalityLevel_advances hc) hequality
  have hor : AgreeBelow (n + 1) (orLevel inner) (orLevel inner') :=
    logicalChain_agree _ _ (andLevel_advances hc) hand
  exact assignChain_agree (orLevel_advances hc) hor

end Levels

theorem exprWithin_advances : ∀ bound, Advances (exprWithin bound)
  | [] => ⟨fun ts => List.suffix_refl ts, fun h => nomatch h⟩
  | _ :: bound => assignLevel_advances (exprWithin_advances bound).consumes

theorem expr_advances : Advances expr :=
  ⟨fun ts => (exprWithin_advances ts).consumes ts, fun h => (exprWithin_advances _).shorter h⟩

theorem exprWithin_nil : ∀ bound, exprWithin bound [] = .error (.endOfInput "expression") []
  | [] => rfl
  | _ :: _ => rfl

/-- Parentheses nest no deeper than there are tokens. -/
theorem exprWithin_agree : ∀ (n : Nat) {bound bound' : List Token}, n ≤ bound.length →
    n ≤ bound'.length → AgreeBelow (n + 1) (exprWithin bound) (exprWithin bound')
  | 0, bound, bound', _, _ => by
    intro ts hts
    obtain rfl : ts = [] := List.length_eq_zero_iff.1 (by omega)
    rw [exprWithin_nil, exprWithin_nil]
  | n + 1, _ :: bound, _ :: bound', h, h' =>
    assignLevel_agree (exprWithin_advances bound).consumes
      (exprWithin_agree n (Nat.le_of_succ_le_succ h) (Nat.le_of_succ_le_succ h'))

/-- An expression is an assignment with expressions inside its parentheses. -/
theorem expr_eq : expr = assignLevel expr := by
  funext ts
  cases ts with
  | nil => rfl
  | cons t rest =>
    have hinner : AgreeBelow (rest.length + 1) (exprWithin rest) expr := by
      intro us hus
      exact exprWithin_agree us.length (Nat.le_of_lt_succ hus) (Nat.le_refl _) us
        (Nat.lt_succ_self _)
    exact assignLevel_agree (exprWithin_advances rest).consumes hinner (t :: rest)
      (Nat.lt_succ_self _)

/-! ### Declarations -/

theorem type_advances : Advances type := by
  refine .bind (.expect _ _) fun t => .bind (.accept _) fun star? => ?_
  cases star? with
  | none => exact .pure _
  | some star =>
    refine .bind (.next _) fun more => .ite (.fault _ _) ?_
    cases ((typeOf? t).getD .void).pointer? with
    | some pointer => exact .pure pointer
    | none => exact .fault _ _

theorem parameter_advances : Advances parameter := by
  refine .after (.peek _) fun first => .bind type_advances fun ty => ?_
  refine .bind Advances.identifier.consumes fun name => .ite (.fault _ _) ?_
  exact .bind (.next _) fun bracket => .ite (.fault _ _) (.pure _)

theorem parameters_advances : Advances parameters := by
  refine .bind (.mark _) fun _ => ?_
  have hvoid : Consumes startsVoidList := fun ts => List.suffix_refl ts
  refine hvoid.bind fun void => .ite ?_ ?_
  · exact .bind (Advances.keyword _).consumes fun _ =>
      .bind (Advances.mark _).consumes fun _ => .pure []
  · exact .bind (.commaList parameter_advances.consumes) fun params =>
      .bind (Advances.mark _).consumes fun _ => .pure params

theorem arrayCount_advances (name : String) : Advances (arrayCount name) := by
  refine .bind (.mark _) fun _ => .bind (Advances.expect _ _).consumes fun size => ?_
  cases size.kind with
  | number n => exact .ite (.fault _ _) (.bind (Advances.mark _).consumes fun _ => .pure _)
  | _ => exact .fault _ _

theorem arrayDeclaration_advances (pos : Position) (constant : Bool) (elem : Ty) (name : String) :
    Advances (arrayDeclaration pos constant elem name) := by
  refine .bind (arrayCount_advances name) fun count => ?_
  cases elem.array? count with
  | none => exact .fault _ _
  | some ty =>
    refine .bind (.accept _) fun equal? => ?_
    cases equal? with
    | some equal => exact .fault _ _
    | none => exact .bind (Advances.mark _).consumes fun _ => .pure _

theorem initializedDeclaration_advances (pos : Position) (constant : Bool) (ty : Ty)
    (name : String) : Advances (initializedDeclaration pos constant ty name) :=
  .ite (.fault _ _) <| .bind (.mark _) fun _ => .bind expr_advances.consumes fun _ =>
    .bind (Advances.mark _).consumes fun _ => .pure _

theorem bareDeclaration_advances (pos : Position) (constant : Bool) (ty : Ty) (name : String) :
    Advances (bareDeclaration pos constant ty name) :=
  .ite (.fault _ _) <| .bind (.mark _) fun _ => .pure _

theorem exprUnless_consumes (m : Mark) : Consumes (exprUnless m) :=
  .bind (.next _) fun _ => .ite (.pure none) <| .bind expr_advances.consumes fun _ => .pure _

theorem condition_advances : Advances condition :=
  .bind (.mark _) fun _ => .bind expr_advances.consumes fun _ =>
    .bind (Advances.mark _).consumes fun _ => .pure _

/-! ### Statements -/

section Nested

variable {inner inner' : Parser Stmt} {n : Nat}

theorem functionLevel_advances (h : Consumes inner) (pos : Position) (result : Ty)
    (name : String) : Advances (functionLevel inner pos result name) := by
  refine .bind parameters_advances fun params => .bind (.accept _) fun semicolon? => ?_
  cases semicolon? with
  | some semicolon => exact .pure _
  | none => exact h.bind fun body => .pure _

theorem declarationLevel_advances (h : Consumes inner) : Advances (declarationLevel inner) := by
  refine .after (.peek _) fun first => .after (.accept _) fun const => ?_
  refine .bind type_advances fun ty => .bind Advances.identifier.consumes fun name => ?_
  refine .bind (.peek _) fun t => ?_
  cases declarationForm? t with
  | none => exact .refuse t _
  | some form =>
    cases form with
    | array => exact (arrayDeclaration_advances _ _ _ _).consumes
    | initialized => exact (initializedDeclaration_advances _ _ _ _).consumes
    | bare => exact (bareDeclaration_advances _ _ _ _).consumes
    | function => exact (functionLevel_advances h _ _ _).consumes

theorem itemLevel_advances (h : Advances inner) : Advances (itemLevel inner) :=
  .after (.next _) fun _ => .ite (declarationLevel_advances h.consumes) h

theorem stmtLevel_advances (h : Advances inner) : Advances (stmtLevel inner) := by
  have hc := h.consumes
  have hclose (m : Mark) : Consumes (mark m) := (Advances.mark m).consumes
  refine .after (.peek _) fun t => ?_
  cases stmtForm t with
  | block =>
    exact .bind (.mark _) fun _ => .bind (.itemsUntil _ (itemLevel_advances h).consumes) fun _ =>
      .bind (hclose _) fun _ => .pure _
  | conditional =>
    refine .bind (.keyword _) fun _ => .bind condition_advances.consumes fun cond => ?_
    refine hc.bind fun yes => .bind (.accept _) fun else? => ?_
    cases else? with
    | none => exact .pure _
    | some word => exact hc.bind fun no => .pure _
  | whileLoop =>
    exact .bind (.keyword _) fun _ => .bind condition_advances.consumes fun _ =>
      hc.bind fun _ => .pure _
  | forLoop =>
    refine .bind (.keyword _) fun _ => .bind (hclose _) fun _ => ?_
    refine .bind (exprUnless_consumes _) fun _ => .bind (hclose _) fun _ => ?_
    refine .bind (exprUnless_consumes _) fun _ => .bind (hclose _) fun _ => ?_
    refine .bind (exprUnless_consumes _) fun _ => .bind (hclose _) fun _ => ?_
    exact hc.bind fun _ => .pure _
  | ret =>
    exact .bind (.keyword _) fun _ => .bind (exprUnless_consumes _) fun _ =>
      .bind (hclose _) fun _ => .pure _
  | expr => exact .bind expr_advances fun _ => .bind (hclose _) fun _ => .pure _

theorem functionLevel_agree (h : AgreeBelow n inner inner') (hc : Consumes inner) (pos : Position)
    (result : Ty) (name : String) :
    AgreeBelow (n + 1) (functionLevel inner pos result name)
      (functionLevel inner' pos result name) := by
  refine .after parameters_advances fun params => .bind (.refl _) (.accept _) fun semicolon? => ?_
  cases semicolon? with
  | some semicolon => exact .refl _
  | none => exact .bind h hc fun _ => .refl _

theorem declarationLevel_agree (h : AgreeBelow n inner inner') (hc : Consumes inner) :
    AgreeBelow (n + 1) (declarationLevel inner) (declarationLevel inner') := by
  refine .bind (.refl _) (.peek _) fun first => .bind (.refl _) (.accept _) fun const => ?_
  refine .bind (.refl _) type_advances.consumes fun ty => ?_
  refine .bind (.refl _) Advances.identifier.consumes fun name => ?_
  refine .bind (.refl _) (.peek _) fun t => ?_
  cases declarationForm? t with
  | none => exact .refl _
  | some form =>
    cases form with
    | array => exact .refl _
    | initialized => exact .refl _
    | bare => exact .refl _
    | function => exact functionLevel_agree h hc _ _ _

theorem itemLevel_agree (h : AgreeBelow n inner inner') (hc : Consumes inner) :
    AgreeBelow n (itemLevel inner) (itemLevel inner') :=
  .bind (.refl _) (.next _) fun _ =>
    .ite ((declarationLevel_agree h hc).mono (Nat.le_succ n)) h

theorem stmtLevel_agree (h : AgreeBelow n inner inner') (ha : Advances inner) :
    AgreeBelow (n + 1) (stmtLevel inner) (stmtLevel inner') := by
  have hc := ha.consumes
  have hclose (m : Mark) : Consumes (mark m) := (Advances.mark m).consumes
  refine .bind (.refl _) (.peek _) fun t => ?_
  cases stmtForm t with
  | block =>
    have hitem := itemLevel_advances ha
    exact .after (.mark _) fun _ => .bind (.itemsUntil _ hitem (itemLevel_agree h hc))
      (.itemsUntil _ hitem.consumes) fun _ => .refl _
  | conditional =>
    refine .after (.keyword _) fun _ => .bind (.refl _) condition_advances.consumes fun cond => ?_
    refine .bind h hc fun yes => .bind (.refl _) (.accept _) fun else? => ?_
    cases else? with
    | none => exact .refl _
    | some word => exact .bind h hc fun _ => .refl _
  | whileLoop =>
    exact .after (.keyword _) fun _ => .bind (.refl _) condition_advances.consumes fun _ =>
      .bind h hc fun _ => .refl _
  | forLoop =>
    refine .after (.keyword _) fun _ => .bind (.refl _) (hclose _) fun _ => ?_
    refine .bind (.refl _) (exprUnless_consumes _) fun _ => .bind (.refl _) (hclose _) fun _ => ?_
    refine .bind (.refl _) (exprUnless_consumes _) fun _ => .bind (.refl _) (hclose _) fun _ => ?_
    refine .bind (.refl _) (exprUnless_consumes _) fun _ => .bind (.refl _) (hclose _) fun _ => ?_
    exact .bind h hc fun _ => .refl _
  | ret => exact .refl _
  | expr => exact .refl _

end Nested

theorem stmtWithin_advances : ∀ bound, Advances (stmtWithin bound)
  | [] => ⟨fun ts => List.suffix_refl ts, fun h => nomatch h⟩
  | _ :: bound => stmtLevel_advances (stmtWithin_advances bound)

theorem stmt_advances : Advances stmt :=
  ⟨fun ts => (stmtWithin_advances ts).consumes ts, fun h => (stmtWithin_advances _).shorter h⟩

theorem item_advances : Advances item := itemLevel_advances stmt_advances

theorem stmtWithin_nil : ∀ bound, stmtWithin bound [] = .error (.endOfInput "statement") []
  | [] => rfl
  | _ :: _ => rfl

/-- Statements nest no deeper than there are tokens. -/
theorem stmtWithin_agree : ∀ (n : Nat) {bound bound' : List Token}, n ≤ bound.length →
    n ≤ bound'.length → AgreeBelow (n + 1) (stmtWithin bound) (stmtWithin bound')
  | 0, bound, bound', _, _ => by
    intro ts hts
    obtain rfl : ts = [] := List.length_eq_zero_iff.1 (by omega)
    rw [stmtWithin_nil, stmtWithin_nil]
  | n + 1, _ :: bound, _ :: bound', h, h' =>
    stmtLevel_agree (stmtWithin_agree n (Nat.le_of_succ_le_succ h) (Nat.le_of_succ_le_succ h'))
      (stmtWithin_advances bound)

/-- A statement has statements inside. -/
theorem stmt_eq : stmt = stmtLevel stmt := by
  funext ts
  cases ts with
  | nil => rfl
  | cons t rest =>
    have hinner : AgreeBelow (rest.length + 1) (stmtWithin rest) stmt := by
      intro us hus
      exact stmtWithin_agree us.length (Nat.le_of_lt_succ hus) (Nat.le_refl _) us
        (Nat.lt_succ_self _)
    exact stmtLevel_agree hinner (stmtWithin_advances rest) (t :: rest) (Nat.lt_succ_self _)

end WordC.Parser
