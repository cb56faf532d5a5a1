import WordC.Proofs.Scan.Layout
import WordC.Proofs.Source.Ensures
import WordC.Proofs.SymbolTable
import WordC.Parser.Stmt

/-!
# Names and texts of programs

Among the tokens of a source, identifiers are names, and string literals stay within a line
(`Token.IsSound`). What is read off such tokens declares names only, and its string literals stay
within a line: `Program.ofTokens_named`. Parsers are followed level by level, by the rules of
`Ensures`.
-/

namespace WordC

/-! ### Tokens -/

/-- An identifier is a name, and a string literal stays within a line. -/
structure Token.IsSound (t : Token) : Prop where
  identifier : t.kind = .identifier → isName t.text = true
  text : t.kind = .text → isLine t.text = true

theorem Token.IsSpelled.isSound {t : Token} (h : t.IsSpelled) : t.IsSound := by
  unfold IsSpelled at h
  constructor
  · intro hkind
    rw [hkind] at h
    exact h.1
  · intro hkind
    rw [hkind] at h
    refine isLine_iff.2 fun hmem => ?_
    simpa [Scan.inQuotes] using h '\n' hmem

/-- Scanning gives sound tokens only. -/
theorem Token.ofSource_sound {file source : String} {tokens : List Token}
    (h : Token.ofSource file source = .ok tokens) : ∀ t ∈ tokens, t.IsSound := by
  intro t ht
  obtain ⟨_, _, -, -, hspelled⟩ := (Scan.scan_layout source.toList [] h).exists_of_mem ht
  exact hspelled.isSound

/-! ### Texts -/

/-- All texts stay within a line. -/
def LinesOnly (texts : List String) : Prop := ∀ x ∈ texts, isLine x = true

@[simp] theorem linesOnly_nil : LinesOnly [] := by simp [LinesOnly]

@[simp] theorem linesOnly_append {texts texts' : List String} :
    LinesOnly (texts ++ texts') ↔ LinesOnly texts ∧ LinesOnly texts' := List.forall_mem_append

/-! ### Expressions -/

namespace Parser

/-- The string literals of an expression stay within a line. -/
def HasLines (e : Expr) : Prop := LinesOnly e.literals

theorem hasLines_of_atom? {t : Token} {e : Expr} (ht : t.IsSound) (h : atom? t = some e) :
    HasLines e := by
  unfold atom? at h
  cases hkind : t.kind with
  | text =>
    rw [hkind] at h
    cases h
    simpa [HasLines, Expr.literals, LinesOnly] using ht.text hkind
  | keyword word =>
    -- of the keywords, only the truth values are atoms
    rw [hkind] at h
    cases word <;> cases h <;> exact linesOnly_nil
  | identifier | number | character =>
    rw [hkind] at h
    cases h
    exact linesOnly_nil
  | mark =>
    rw [hkind] at h
    cases h

theorem linesOnly_literalsOfAll : ∀ {es : List Expr}, (∀ e ∈ es, HasLines e) →
    LinesOnly (Expr.literalsOfAll es)
  | [], _ => linesOnly_nil
  | e :: es, h => by
    rw [List.forall_mem_cons] at h
    rw [Expr.literalsOfAll, linesOnly_append]
    exact ⟨h.1, linesOnly_literalsOfAll h.2⟩

theorem hasLines_applyCalls : ∀ {calls : List (List Expr)} {callee : Expr}, HasLines callee →
    (∀ args ∈ calls, ∀ e ∈ args, HasLines e) → HasLines (applyCalls callee calls)
  | [], _, hcallee, _ => hcallee
  | args :: calls, callee, hcallee, hcalls => by
    rw [List.forall_mem_cons] at hcalls
    have hcall : HasLines (.call callee.pos callee args) := by
      rw [HasLines, Expr.literals, linesOnly_append]
      exact ⟨hcallee, linesOnly_literalsOfAll hcalls.1⟩
    have hcalled := hasLines_applyCalls hcall hcalls.2
    exact hcalled

theorem hasLines_applyPrefixes (ops : List (UnaryOp × Position)) {operand : Expr}
    (h : HasLines operand) : HasLines (applyPrefixes ops operand) := by
  induction ops with
  | nil => exact h
  | cons op ops ih =>
    rw [HasLines, applyPrefixes, List.foldr_cons, Expr.literals]
    exact ih

theorem hasLines_joinLeft : ∀ {others : List (BinaryOp × Expr)} {first : Expr}, HasLines first →
    (∀ operand ∈ others, HasLines operand.2) → HasLines (joinLeft first others)
  | [], _, hfirst, _ => hfirst
  | operand :: others, first, hfirst, hothers => by
    rw [List.forall_mem_cons] at hothers
    have hnode : HasLines (.binary first.pos operand.1 first operand.2) := by
      rw [HasLines, Expr.literals, linesOnly_append]
      exact ⟨hfirst, hothers.1⟩
    have hjoined := hasLines_joinLeft hnode hothers.2
    exact hjoined

theorem hasLines_joinLogical (op : LogicalOp) {first : Expr} {others : List Expr}
    (hfirst : HasLines first) (hothers : ∀ e ∈ others, HasLines e) :
    HasLines (joinLogical op first others) := by
  cases others with
  | nil => exact hfirst
  | cons e others =>
    rw [joinLogical, HasLines, Expr.literals]
    · exact linesOnly_literalsOfAll (List.forall_mem_cons.2 ⟨hfirst, hothers⟩)
    · simp

theorem hasLines_joinAssign : ∀ {values : List Expr} {e : Expr}, HasLines e →
    (∀ value ∈ values, HasLines value) → HasLines (joinAssign e values)
  | [], _, he, _ => he
  | value :: values, e, he, hvalues => by
    rw [List.forall_mem_cons] at hvalues
    rw [joinAssign, HasLines, Expr.literals, linesOnly_append]
    exact ⟨he, hasLines_joinAssign hvalues.1 hvalues.2⟩

/-! ### Levels of expressions -/

section Levels

variable {inner : Parser Expr}

theorem primaryLevel_ensures (h : Ensures Token.IsSound inner HasLines) :
    Ensures Token.IsSound (primaryLevel inner) HasLines := by
  refine .bind (.token _) fun t ht => ?_
  cases hatom : atom? t with
  | some e => exact .pure (hasLines_of_atom? ht hatom)
  | none =>
    refine .ite ?_ (.refuse t _)
    exact .bind h fun e he => .andThen (.mark _) fun _ => .pure he

theorem arguments_ensures (h : Ensures Token.IsSound inner HasLines) :
    Ensures Token.IsSound (arguments inner) fun args => ∀ e ∈ args, HasLines e :=
  .bind (.commaList h) fun _ hargs => .andThen (.mark _) fun _ => .pure hargs

theorem callLevel_ensures (h : Ensures Token.IsSound inner HasLines) :
    Ensures Token.IsSound (callLevel inner) HasLines := by
  refine .bind (primaryLevel_ensures h) fun callee hcallee => ?_
  refine .bind (.many fun _ => arguments_ensures h) fun calls hcalls => ?_
  exact .pure (hasLines_applyCalls hcallee hcalls)

theorem unaryLevel_ensures (h : Ensures Token.IsSound inner HasLines) :
    Ensures Token.IsSound (unaryLevel inner) HasLines := by
  have hop (op : UnaryOp × Position) :
      Ensures Token.IsSound (Pure.pure op : Parser (UnaryOp × Position)) fun _ => True :=
    .pure True.intro
  refine .andThen (Ensures.many hop).trivial fun ops => ?_
  exact .bind (callLevel_ensures h) fun operand hoperand =>
    .pure (hasLines_applyPrefixes ops hoperand)

theorem leftChain_ensures {op? : Token → Option BinaryOp} {operand : Parser Expr}
    (h : Ensures Token.IsSound operand HasLines) :
    Ensures Token.IsSound (leftChain op? operand) HasLines := by
  refine .bind h fun first hfirst => ?_
  have hround (op : BinaryOp) : Ensures Token.IsSound (do
      let e ← operand
      Pure.pure (op, e)) fun pair => HasLines pair.2 := .bind h fun e he => .pure he
  exact .bind (.many hround) fun others hothers => .pure (hasLines_joinLeft hfirst hothers)

theorem logicalChain_ensures {m : Mark} {op : LogicalOp} {operand : Parser Expr}
    (h : Ensures Token.IsSound operand HasLines) :
    Ensures Token.IsSound (logicalChain m op operand) HasLines := by
  refine .bind h fun first hfirst => ?_
  exact .bind (.many fun _ => h) fun others hothers =>
    .pure (hasLines_joinLogical op hfirst hothers)

theorem assignChain_ensures {operand : Parser Expr} (h : Ensures Token.IsSound operand HasLines) :
    Ensures Token.IsSound (assignChain operand) HasLines := by
  refine .bind h fun first hfirst => ?_
  exact .bind (.many fun _ => h) fun others hothers => .pure (hasLines_joinAssign hfirst hothers)

theorem assignLevel_ensures (h : Ensures Token.IsSound inner HasLines) :
    Ensures Token.IsSound (assignLevel inner) HasLines := by
  have hcomparison : Ensures Token.IsSound (equalityLevel inner) HasLines :=
    leftChain_ensures (leftChain_ensures (leftChain_ensures (leftChain_ensures
      (unaryLevel_ensures h))))
  exact assignChain_ensures (logicalChain_ensures (logicalChain_ensures hcomparison))

end Levels

theorem exprWithin_ensures : ∀ bound, Ensures Token.IsSound (exprWithin bound) HasLines
  | [] => fun _ _ _ _ hrun => nomatch hrun
  | _ :: bound => assignLevel_ensures (exprWithin_ensures bound)

/-- The string literals of an expression stay within a line. -/
theorem expr_ensures : Ensures Token.IsSound expr HasLines := fun ts => exprWithin_ensures ts ts

end Parser

/-! ### Statements -/

/-- The names that are declared are names, and the texts stay within a line. -/
structure Contents.IsNamed (c : Contents) : Prop where
  names : ∀ x, c.Declares x → isName x = true
  texts : LinesOnly c.literals

theorem Contents.isNamed_append {c d : Contents} :
    (c ++ d).IsNamed ↔ c.IsNamed ∧ d.IsNamed := by
  constructor
  · intro h
    obtain ⟨htexts, htexts'⟩ := linesOnly_append.1 h.texts
    exact ⟨⟨fun x hx => h.names x (declares_append.2 (.inl hx)), htexts⟩,
      ⟨fun x hx => h.names x (declares_append.2 (.inr hx)), htexts'⟩⟩
  · rintro ⟨hc, hd⟩
    refine ⟨fun x hx => ?_, linesOnly_append.2 ⟨hc.texts, hd.texts⟩⟩
    exact (declares_append.1 hx).elim (hc.names x) (hd.names x)

theorem Contents.isNamed_literals {texts : List String} (h : LinesOnly texts) :
    Contents.IsNamed { literals := texts } := ⟨by simp [Declares], h⟩

theorem Stmt.isNamed_contentsOfAll : ∀ {items : List Stmt},
    (∀ item ∈ items, item.contents.IsNamed) → (contentsOfAll items).IsNamed
  | [], _ => by
    rw [contentsOfAll_nil]
    exact Contents.isNamed_literals linesOnly_nil
  | item :: items, h => by
    rw [List.forall_mem_cons] at h
    rw [contentsOfAll_cons, Contents.isNamed_append]
    exact ⟨h.1, isNamed_contentsOfAll h.2⟩

namespace Parser

/-- What a statement declares are names, and its texts stay within a line. -/
def IsNamed (stmt : Stmt) : Prop := stmt.contents.IsNamed

theorem identifier_ensures : Ensures Token.IsSound identifier fun t => isName t.text = true :=
  (Ensures.expect _).mono fun _ h => h.1.identifier (by simpa [isIdentifier] using h.2)

theorem type_ensures : Ensures Token.IsSound type fun _ => True := by
  refine .andThen (Ensures.expect _).trivial fun t => ?_
  refine .andThen .accept fun star? => ?_
  cases star? with
  | none => exact .pure True.intro
  | some star =>
    refine .andThen .next fun more => .ite (.fault _ _) ?_
    cases ((typeOf? t).getD .void).pointer? with
    | some pointer => exact .pure True.intro
    | none => exact .fault _ _

theorem parameter_ensures : Ensures Token.IsSound parameter fun _ => True := by
  refine .andThen (Ensures.peek _).trivial fun first => ?_
  refine .andThen type_ensures fun ty => ?_
  refine .andThen identifier_ensures.trivial fun name => ?_
  refine .ite (.fault _ _) ?_
  exact .andThen .next fun bracket => .ite (.fault _ _) (.pure True.intro)

theorem parameters_ensures : Ensures Token.IsSound parameters fun _ => True := by
  have hvoid : Ensures Token.IsSound startsVoidList fun _ => True := by
    intro ts a rest hts hrun
    cases hrun
    exact ⟨True.intro, hts⟩
  refine .andThen (.mark _) fun _ => ?_
  refine .andThen hvoid fun void => .ite ?_ ?_
  · exact .andThen (.keyword _) fun _ => .andThen (.mark _) fun _ => .pure True.intro
  · refine .andThen (Ensures.commaList parameter_ensures).trivial fun params => ?_
    exact .andThen (.mark _) fun _ => .pure True.intro

theorem arrayCount_ensures (name : String) :
    Ensures Token.IsSound (arrayCount name) fun _ => True := by
  refine .andThen (.mark _) fun _ => ?_
  refine .andThen (Ensures.expect _).trivial fun size => ?_
  cases size.kind with
  | number n => exact .ite (.fault _ _) (.andThen (.mark _) fun _ => .pure True.intro)
  | _ => exact .fault _ _

theorem isNamed_var (pos : Position) {name : String} (hname : isName name = true) (ty : Ty)
    (constant : Bool) {init : Option Expr} (hinit : LinesOnly (Expr.literals? init)) :
    IsNamed (.var pos ⟨name, ty, constant, init⟩) := by
  refine ⟨fun x hx => ?_, hinit⟩
  simp only [Contents.Declares, Stmt.contents, Stmt.vars, Stmt.prototypes, Stmt.definitions,
    List.mem_singleton, List.not_mem_nil, or_false] at hx
  rwa [hx]

theorem arrayDeclaration_ensures (pos : Position) (constant : Bool) (elem : Ty) {name : String}
    (hname : isName name = true) :
    Ensures Token.IsSound (arrayDeclaration pos constant elem name) IsNamed := by
  refine .andThen (arrayCount_ensures name) fun count => ?_
  cases elem.array? count with
  | none => exact .fault _ _
  | some ty =>
    refine .andThen .accept fun equal? => ?_
    cases equal? with
    | some equal => exact .fault _ _
    | none =>
      exact .andThen (.mark _) fun _ => .pure (isNamed_var pos hname ty constant linesOnly_nil)

theorem initializedDeclaration_ensures (pos : Position) (constant : Bool) (ty : Ty) {name : String}
    (hname : isName name = true) :
    Ensures Token.IsSound (initializedDeclaration pos constant ty name) IsNamed := by
  refine .ite (.fault _ _) (.andThen (.mark _) fun _ => ?_)
  refine .bind expr_ensures fun init hinit => .andThen (.mark _) fun _ => ?_
  exact .pure (isNamed_var pos hname ty constant hinit)

theorem bareDeclaration_ensures (pos : Position) (constant : Bool) (ty : Ty) {name : String}
    (hname : isName name = true) :
    Ensures Token.IsSound (bareDeclaration pos constant ty name) IsNamed := by
  refine .ite (.fault _ _) (.andThen (.mark _) fun _ => ?_)
  exact .pure (isNamed_var pos hname ty constant linesOnly_nil)

theorem exprUnless_ensures (m : Mark) :
    Ensures Token.IsSound (exprUnless m) fun e => LinesOnly (Expr.literals? e) := by
  refine .andThen .next fun stop => .ite (.pure linesOnly_nil) ?_
  exact .bind expr_ensures fun e he => .pure he

theorem condition_ensures : Ensures Token.IsSound condition HasLines := by
  refine .andThen (.mark _) fun _ => ?_
  exact .bind expr_ensures fun e he => .andThen (.mark _) fun _ => .pure he

/-! ### Levels of statements -/

section Nested

variable {inner : Parser Stmt}

theorem functionLevel_ensures (h : Ensures Token.IsSound inner IsNamed) (pos : Position)
    (result : Ty) {name : String} (hname : isName name = true) :
    Ensures Token.IsSound (functionLevel inner pos result name) IsNamed := by
  refine .andThen parameters_ensures fun params => ?_
  refine .andThen .accept fun semicolon? => ?_
  cases semicolon? with
  | some semicolon =>
    refine .pure ⟨fun x hx => ?_, linesOnly_nil⟩
    simp only [Contents.Declares, Stmt.contents, Stmt.vars, Stmt.prototypes, Stmt.definitions,
      List.mem_singleton, List.not_mem_nil, false_or, or_false] at hx
    rwa [hx]
  | none =>
    refine .bind h fun body hbody => .pure ?_
    have hhead : Contents.IsNamed { definitions := [name] } := by
      refine ⟨fun x hx => ?_, linesOnly_nil⟩
      simp only [Contents.Declares, List.mem_singleton, List.not_mem_nil, false_or] at hx
      rwa [hx]
    exact Contents.isNamed_append.2 ⟨hhead, hbody⟩

theorem declarationLevel_ensures (h : Ensures Token.IsSound inner IsNamed) :
    Ensures Token.IsSound (declarationLevel inner) IsNamed := by
  refine .andThen (Ensures.peek _).trivial fun first => ?_
  refine .andThen .accept fun const => ?_
  refine .andThen type_ensures fun ty => ?_
  refine .bind identifier_ensures fun name hname => ?_
  refine .andThen (Ensures.peek _).trivial fun t => ?_
  cases declarationForm? t with
  | none => exact .refuse t _
  | some form =>
    cases form with
    | array => exact arrayDeclaration_ensures _ _ _ hname
    | initialized => exact initializedDeclaration_ensures _ _ _ hname
    | bare => exact bareDeclaration_ensures _ _ _ hname
    | function => exact functionLevel_ensures h _ _ hname

theorem itemLevel_ensures (h : Ensures Token.IsSound inner IsNamed) :
    Ensures Token.IsSound (itemLevel inner) IsNamed :=
  .andThen .next fun _ => .ite (declarationLevel_ensures h) h

theorem blockLevel_ensures (h : Ensures Token.IsSound inner IsNamed) (pos : Position) :
    Ensures Token.IsSound (blockLevel inner pos) IsNamed := by
  refine .andThen (.mark _) fun _ => ?_
  refine .bind (.itemsUntil (itemLevel_ensures h)) fun items hitems => ?_
  refine .andThen (.mark _) fun _ => .pure ?_
  exact Stmt.isNamed_contentsOfAll hitems

theorem ifLevel_ensures (h : Ensures Token.IsSound inner IsNamed) (pos : Position) :
    Ensures Token.IsSound (ifLevel inner pos) IsNamed := by
  refine .andThen (.keyword _) fun _ => ?_
  refine .bind condition_ensures fun cond hcond => ?_
  refine .bind h fun yes hyes => .andThen .accept fun else? => ?_
  have hhead := Contents.isNamed_literals hcond
  cases else? with
  | none => exact .pure (Contents.isNamed_append.2 ⟨hhead, hyes⟩)
  | some word =>
    refine .bind h fun no hno => .pure ?_
    exact Contents.isNamed_append.2 ⟨hhead, Contents.isNamed_append.2 ⟨hyes, hno⟩⟩

theorem whileLevel_ensures (h : Ensures Token.IsSound inner IsNamed) (pos : Position) :
    Ensures Token.IsSound (whileLevel inner pos) IsNamed := by
  refine .andThen (.keyword _) fun _ => ?_
  refine .bind condition_ensures fun cond hcond => .bind h fun body hbody => .pure ?_
  exact Contents.isNamed_append.2 ⟨Contents.isNamed_literals hcond, hbody⟩

theorem forLevel_ensures (h : Ensures Token.IsSound inner IsNamed) (pos : Position) :
    Ensures Token.IsSound (forLevel inner pos) IsNamed := by
  refine .andThen (.keyword _) fun _ => .andThen (.mark _) fun _ => ?_
  refine .bind (exprUnless_ensures _) fun init hinit => .andThen (.mark _) fun _ => ?_
  refine .bind (exprUnless_ensures _) fun cond hcond => .andThen (.mark _) fun _ => ?_
  refine .bind (exprUnless_ensures _) fun step hstep => .andThen (.mark _) fun _ => ?_
  refine .bind h fun body hbody => .pure ⟨hbody.names, ?_⟩
  have htexts : LinesOnly body.literals := hbody.texts
  rw [Stmt.contents, Stmt.literals, linesOnly_append, linesOnly_append, linesOnly_append]
  exact ⟨hinit, hcond, htexts, hstep⟩

theorem returnStmt_ensures (pos : Position) : Ensures Token.IsSound (returnStmt pos) IsNamed := by
  refine .andThen (.keyword _) fun _ => .bind (exprUnless_ensures _) fun value hvalue => ?_
  exact .andThen (.mark _) fun _ => .pure (Contents.isNamed_literals hvalue)

theorem exprStmt_ensures (pos : Position) : Ensures Token.IsSound (exprStmt pos) IsNamed := by
  refine .bind expr_ensures fun value hvalue => ?_
  exact .andThen (.mark _) fun _ => .pure (Contents.isNamed_literals hvalue)

theorem stmtLevel_ensures (h : Ensures Token.IsSound inner IsNamed) :
    Ensures Token.IsSound (stmtLevel inner) IsNamed := by
  refine .andThen (Ensures.peek _).trivial fun t => ?_
  cases stmtForm t with
  | block => exact blockLevel_ensures h _
  | conditional => exact ifLevel_ensures h _
  | whileLoop => exact whileLevel_ensures h _
  | forLoop => exact forLevel_ensures h _
  | ret => exact returnStmt_ensures _
  | expr => exact exprStmt_ensures _

end Nested

theorem stmtWithin_ensures : ∀ bound, Ensures Token.IsSound (stmtWithin bound) IsNamed
  | [] => fun _ _ _ _ hrun => nomatch hrun
  | _ :: bound => stmtLevel_ensures (stmtWithin_ensures bound)

theorem program_ensures :
    Ensures Token.IsSound program fun items => ∀ item ∈ items, IsNamed item :=
  .itemsUntil (itemLevel_ensures fun ts => stmtWithin_ensures ts ts)

end Parser

/-- A program that was read off sound tokens declares names only, and its texts stay within a
line. -/
theorem Program.ofTokens_named {tokens : List Token} {program : Program}
    (hts : ∀ t ∈ tokens, t.IsSound) (h : Program.ofTokens tokens = .ok program) :
    (Stmt.contentsOfAll program).IsNamed := by
  unfold Program.ofTokens Program.ofRest at h
  split at h
  · rename_i items rest hrun
    cases h
    obtain ⟨hitems, -⟩ := Parser.program_ensures tokens _ rest hts hrun
    exact Stmt.isNamed_contentsOfAll hitems
  · cases h

end WordC
