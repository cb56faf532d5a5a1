import WordC.Proofs.Parser.Steady

/-!
# Programs with more tokens behind them

Every parser of the language keeps its settled replies when more tokens follow. An expression may go
on, so it is settled where tokens are left; declarations and most statements end with a semicolon or
a brace. The one thing that can follow a complete item and change it is an `else`, behind an `if`
without one.

* `item_steady`: items, in front of tokens that do not begin with `else`;
* `Program.ofTokens_append`: the items of a program, then those of what follows;
* `Program.ofTokens_append_of_error`: an error other than the end of the input is final.
-/

namespace WordC.Parser

variable {more : List Token} {closed : Prop}

/-! ### Expressions -/

section Levels

variable {inner : Parser Expr}

theorem primaryLevel_steady (h : Steady more False inner) :
    Steady more closed (primaryLevel inner) := by
  refine .andThen (.token _) fun t => ?_
  cases atom? t with
  | some e => exact .pure e
  | none => exact .ite (h.thenMark _ .pure) (.refuse t _)

theorem arguments_steady (hc : Consumes inner) (hneeds : Hungry inner)
    (h : Steady more False inner) : Steady more closed (arguments inner) :=
  .thenMark (.commaList hc hneeds h) _ .pure

theorem callLevel_steady (hc : Consumes inner) (hneeds : Hungry inner)
    (h : Steady more False inner) : Steady more False (callLevel inner) := by
  refine .andThen (primaryLevel_steady h) fun callee => .map (.many _ ?_ ?_) _
  · exact fun _ => arguments_consumes hc
  · exact fun _ => arguments_steady hc hneeds h

theorem callLevel_hungry (inner : Parser Expr) : Hungry (callLevel inner) :=
  ((Hungry.token _).bind _).bind _

theorem unaryLevel_steady (hc : Consumes inner) (hneeds : Hungry inner)
    (h : Steady more False inner) : Steady more False (unaryLevel inner) := by
  have hops : Steady more False (many prefixOp? pure) :=
    .many _ (fun _ => .pure _) fun _ => .pure _
  refine hops.bindHungry (fun ops => ?_) fun ops => (callLevel_hungry inner).bind _
  exact .map (callLevel_steady hc hneeds h) _

variable {operand : Parser Expr}

theorem leftChain_steady (op? : Token → Option BinaryOp) (hc : Consumes operand)
    (h : Steady more False operand) : Steady more False (leftChain op? operand) := by
  have hmany : Steady more False (many op? fun op => do
      let e ← operand
      pure (op, e)) := .many _ (operand_consumes hc) fun op => .map h _
  exact h.join hmany rfl joinLeft

theorem logicalChain_steady (m : Mark) (op : LogicalOp) (hc : Consumes operand)
    (h : Steady more False operand) : Steady more False (logicalChain m op operand) :=
  h.join (.many _ (fun _ => hc) fun _ => h) rfl (joinLogical op)

theorem assignChain_steady (hc : Consumes operand) (h : Steady more False operand) :
    Steady more False (assignChain operand) :=
  h.join (.many _ (fun _ => hc) fun _ => h) rfl joinAssign

theorem assignLevel_steady (hc : Consumes inner) (hneeds : Hungry inner)
    (h : Steady more False inner) : Steady more False (assignLevel inner) := by
  -- each level is a chain of operands of the level below
  have hproduct : Steady more False (productLevel inner) :=
    leftChain_steady _ (unaryLevel_advances hc).consumes (unaryLevel_steady hc hneeds h)
  have hsum : Steady more False (sumLevel inner) :=
    leftChain_steady _ (productLevel_advances hc).consumes hproduct
  have hrelation : Steady more False (relationLevel inner) :=
    leftChain_steady _ (sumLevel_advances hc).consumes hsum
  have hequality : Steady more False (equalityLevel inner) :=
    leftChain_steady _ (relationLevel_advances hc).consumes hrelation
  have hand : Steady more False (andLevel inner) :=
    logicalChain_steady _ _ (equalityLevel_advances hc).consumes hequality
  have hor : Steady more False (orLevel inner) :=
    logicalChain_steady _ _ (andLevel_advances hc).consumes hand
  exact assignChain_steady (orLevel_advances hc).consumes hor

end Levels

theorem exprWithin_steady : ∀ bound, Steady more False (exprWithin bound)
  | [] => fun _ hs => hs.elim
  | _ :: bound =>
    assignLevel_steady (exprWithin_advances bound).consumes ⟨_, exprWithin_nil bound⟩
      (exprWithin_steady bound)

/-- An expression is settled where tokens are left behind it. -/
theorem expr_steady : Steady more False expr := by
  intro ts hs
  have hbound : expr ts = exprWithin (ts ++ more) ts :=
    exprWithin_agree ts.length (Nat.le_refl _) (by simp) ts (Nat.lt_succ_self _)
  rw [hbound] at hs ⊢
  exact exprWithin_steady (ts ++ more) ts hs

theorem expr_hungry : Hungry expr := ⟨_, rfl⟩

/-! ### Declarations -/

/-- There are pointers to every type that is named by a token. -/
theorem exists_pointer?_typeOf? (t : Token) :
    ∃ pointer, ((typeOf? t).getD .void).pointer? = some pointer := by
  unfold typeOf?
  split <;> exact ⟨_, rfl⟩

theorem type_steady : Steady more False type := by
  refine .andThen (.expect _ _) fun t => .accept (fun star? => ?_) fun hs => (hs rfl).elim
  -- a star at the end is not refused: there is a pointer type, unless a second star follows
  obtain ⟨pointer, hpointer⟩ := exists_pointer?_typeOf? t
  rw [hpointer]
  cases star? with
  | none => exact .pure _
  | some star =>
    exact .next (fun _ => .ite (.fault _ _) (.pure pointer)) fun hs => (hs rfl).elim

theorem type_hungry : Hungry type := (Hungry.expect _ _).bind _

theorem parameter_hungry : Hungry parameter := (Hungry.peek _).bind _

/-- A parameter may go on with a bracket. -/
theorem parameter_steady : Steady more False parameter := by
  refine .andThen (.peek _) fun first => type_steady.bindHungry (fun ty => ?_)
    fun ty => (Hungry.expect _ _).bind _
  refine .andThen .identifier fun name => .ite (.fault _ _) ?_
  exact .next (fun _ => .ite (.fault _ _) (.pure _)) fun hs => (hs rfl).elim

/-- Whether `void` is the whole list of parameters shows in the token behind it. Where that is
missing, the name of a parameter is missing. -/
theorem parameters_steady : Steady more closed parameters := by
  have hnamed : Steady more closed (do
      let params ← commaList parameter
      let _ ← mark .closeParen
      pure params) :=
    .thenMark (.commaList parameter_advances.consumes parameter_hungry parameter_steady) _ .pure
  have hvoid : Steady more closed (do
      let _ ← keyword .voidWord
      let _ ← mark .closeParen
      pure ([] : List Param)) := .andThen (.keyword _) fun _ => .map (.mark _) _
  refine .andThen (.mark _) fun _ => ?_
  intro ts hs
  match ts with
  | [] => exact hs.elim
  | [t] =>
    by_cases ht : isKeyword .voidWord t = true
    · obtain ⟨kind, text, pos⟩ := t
      obtain rfl : kind = .keyword .voidWord := by simpa [isKeyword] using ht
      -- `void` alone is read as the type of a parameter, and the input ends before its name
      exact hs.elim
    · have hstarts (us : List Token) : startsVoidList (t :: us) = .ok false (t :: us) := by
        simp [startsVoidList, ht]
      rw [bind_of_ok (hstarts [])] at hs ⊢
      rw [List.singleton_append, bind_of_ok (hstarts more)]
      exact hnamed [t] hs
  | t :: u :: rest => exact Steady.ite hvoid hnamed (t :: u :: rest) hs

theorem arrayCount_steady (name : String) : Steady more closed (arrayCount name) := by
  refine .andThen (.mark _) fun _ => .andThen (.expect _ _) fun size => ?_
  cases size.kind with
  | number n => exact .ite (.fault _ _) (.map (.mark _) _)
  | _ => exact .fault _ _

theorem arrayDeclaration_steady (pos : Position) (constant : Bool) (elem : Ty) (name : String) :
    Steady more closed (arrayDeclaration pos constant elem name) := by
  refine .andThen (arrayCount_steady name) fun count => ?_
  cases elem.array? count with
  | none => exact .fault _ _
  | some ty =>
    refine .acceptHungry (fun equal? => ?_) ((Hungry.mark _).bind _)
    cases equal? with
    | some equal => exact .fault _ _
    | none => exact .map (.mark _) _

theorem initializedDeclaration_steady (pos : Position) (constant : Bool) (ty : Ty)
    (name : String) : Steady more closed (initializedDeclaration pos constant ty name) :=
  .ite (.fault _ _) (.andThen (.mark _) fun _ => .thenMark expr_steady _ fun _ => .pure _)

theorem bareDeclaration_steady (pos : Position) (constant : Bool) (ty : Ty) (name : String) :
    Steady more closed (bareDeclaration pos constant ty name) :=
  .ite (.fault _ _) (.map (.mark _) _)

/-! ### Statements -/

theorem exprUnless_steady (m : Mark) : Steady more False (exprUnless m) :=
  .nextHungry (fun _ => .ite (.pure none) (.map expr_steady _)) (expr_hungry.bind _)

theorem condition_steady : Steady more closed condition :=
  .andThen (.mark _) fun _ => .thenMark expr_steady _ .pure

/-- The tokens do not begin with `else`. -/
def NoElse (more : List Token) : Prop := more.head?.any (isKeyword .elseWord) = false

section Nested

variable {inner : Parser Stmt}

theorem functionLevel_steady (hneeds : Hungry inner) (h : Steady more closed inner) (pos : Position)
    (result : Ty) (name : String) : Steady more closed (functionLevel inner pos result name) := by
  refine .andThen parameters_steady fun params => ?_
  refine .acceptHungry (fun semicolon? => ?_) (hneeds.bind _)
  cases semicolon? with
  | some semicolon => exact .pure _
  | none => exact .map h _

theorem declarationLevel_steady (hneeds : Hungry inner) (h : Steady more closed inner) :
    Steady more closed (declarationLevel inner) := by
  refine .andThen (.peek _) fun first => .acceptHungry (fun const => ?_) (type_hungry.bind _)
  refine type_steady.bindHungry (fun ty => ?_) fun ty => (Hungry.expect _ _).bind _
  refine .andThen .identifier fun name => .andThen (.peek _) fun t => ?_
  cases declarationForm? t with
  | none => exact .refuse t _
  | some form =>
    cases form with
    | array => exact arrayDeclaration_steady _ _ _ _
    | initialized => exact initializedDeclaration_steady _ _ _ _
    | bare => exact bareDeclaration_steady _ _ _ _
    | function => exact functionLevel_steady hneeds h _ _ _

theorem itemLevel_steady (hneeds : Hungry inner) (h : Steady more closed inner) :
    Steady more closed (itemLevel inner) :=
  .nextHungry (fun _ => .ite (declarationLevel_steady hneeds h) h) hneeds

/-- Here it matters that no `else` follows. -/
theorem ifLevel_steady (h : Steady more (NoElse more) inner) (pos : Position) :
    Steady more (NoElse more) (ifLevel inner pos) := by
  refine .andThen (.keyword _) fun _ => .andThen condition_steady fun cond => ?_
  refine h.bindEmpty (fun yes => ?_) fun yes => ⟨_, rfl⟩
  refine .accept (fun else? => ?_) fun hs => hs rfl
  cases else? with
  | none => exact .pure _
  | some word => exact .map h _

theorem forLevel_steady (h : Steady more closed inner) (pos : Position) :
    Steady more closed (forLevel inner pos) := by
  refine .andThen (.keyword _) fun _ => .andThen (.mark _) fun _ => ?_
  refine .thenMark (exprUnless_steady _) _ fun init => ?_
  refine .thenMark (exprUnless_steady _) _ fun cond => ?_
  refine .thenMark (exprUnless_steady _) _ fun step => ?_
  exact .map h _

theorem stmtLevel_steady (ha : Advances inner) (hneeds : Hungry inner)
    (h : Steady more (NoElse more) inner) : Steady more (NoElse more) (stmtLevel inner) := by
  refine .andThen (.peek _) fun t => ?_
  cases stmtForm t with
  | block =>
    have hitems : Steady more False (itemsUntil (isMark .closeBrace) (itemLevel inner)) :=
      .itemsUntil _ (itemLevel_advances ha) ((itemLevel_steady hneeds h).mono False.elim)
    exact .andThen (.mark _) fun _ => .thenMark hitems _ fun _ => .pure _
  | conditional => exact ifLevel_steady h _
  | whileLoop => exact .andThen (.keyword _) fun _ => .andThen condition_steady fun _ => .map h _
  | forLoop => exact forLevel_steady h _
  | ret =>
    exact .andThen (.keyword _) fun _ => .thenMark (exprUnless_steady _) _ fun _ => .pure _
  | expr => exact .thenMark expr_steady _ fun _ => .pure _

end Nested

theorem stmtWithin_steady : ∀ bound, Steady more (NoElse more) (stmtWithin bound)
  | [] => fun _ hs => hs.elim
  | _ :: bound =>
    stmtLevel_steady (stmtWithin_advances bound) ⟨_, stmtWithin_nil bound⟩ (stmtWithin_steady bound)

theorem stmt_steady : Steady more (NoElse more) stmt := by
  intro ts hs
  have hbound : stmt ts = stmtWithin (ts ++ more) ts :=
    stmtWithin_agree ts.length (Nat.le_refl _) (by simp) ts (Nat.lt_succ_self _)
  rw [hbound] at hs ⊢
  exact stmtWithin_steady (ts ++ more) ts hs

/-- An item stays the same in front of tokens that do not begin with `else`. -/
theorem item_steady : Steady more (NoElse more) item := itemLevel_steady ⟨_, rfl⟩ stmt_steady

/-! ### Programs -/

theorem program_steady : Steady more False program :=
  .itemsUntil _ item_advances (item_steady.mono False.elim)

/-- The items of a program, then those of what follows. -/
theorem program_append (hmore : NoElse more) {ts rest : List Token} {items : Program}
    (h : program ts = .ok items rest) :
    program (ts ++ more) = (do
      let others ← program
      pure (items ++ others)) more := by
  refine itemsUntil_induct (fun ts hts => ?_) (fun {ts mid rest a as} ha ih => ?_) item_advances h
  · cases ts with
    | nil => simp only [List.nil_append, bind_pure]
    | cons t rest => cases hts
  · cases ts with
    | nil => cases ha
    | cons t rest =>
      have hitem := item_steady (t :: rest) (by rw [ha]; exact fun _ => hmore)
      rw [ha] at hitem
      have hround : program (t :: rest ++ more) = (do
          let as ← program
          pure (a :: as)) (mid ++ more) :=
        (itemsUntil_cons item_advances rfl).trans (bind_of_ok hitem)
      rw [hround, bind_apply, ih, bind_apply, bind_apply]
      cases program more <;> rfl

end WordC.Parser

namespace WordC

/-- The end is reported at the last of the tokens that follow. -/
theorem endPosition_append {ts us : List Token} (h : us ≠ []) :
    endPosition (ts ++ us) = endPosition us := by
  rw [endPosition, endPosition, List.getLast?_append, List.getLast?_eq_some_getLast h]
  rfl

namespace Program

/-- Programs are read item by item. Tokens behind those of a program that do not begin with `else`
are read as a program of their own: the items follow those in front, and an error is the error of
the whole. -/
theorem ofTokens_append {ts us : List Token} {items : Program} (h : ofTokens ts = .ok items)
    (hus : us.head?.any (Parser.isKeyword .elseWord) = false) :
    ofTokens (ts ++ us) = (ofTokens us).map (items ++ ·) := by
  rw [ofTokens, ofRest] at h
  cases hrun : Parser.program ts with
  | error failure rest =>
    rw [hrun] at h
    cases h
  | ok found rest =>
    rw [hrun] at h
    cases h
    rw [ofTokens, ofTokens, ofRest, ofRest, Parser.program_append hus hrun, Parser.bind_apply]
    cases hmore : Parser.program us with
    | ok others rest => rfl
    | error failure rest =>
      have hne : us ≠ [] := by
        rintro rfl
        cases hmore
      rw [endPosition_append hne]
      rfl

/-- An `if` that could go on with an `else`, in front of a statement and of an error at the end. -/
theorem ofTokens_append_openIf :
    let ts : List Token :=
      [⟨.keyword .ifWord, "if", ⟨"a.c", 1, 1⟩⟩, ⟨.mark .openParen, "(", ⟨"a.c", 1, 3⟩⟩,
       ⟨.identifier, "x", ⟨"a.c", 1, 4⟩⟩, ⟨.mark .closeParen, ")", ⟨"a.c", 1, 5⟩⟩,
       ⟨.number 1, "1", ⟨"a.c", 1, 7⟩⟩, ⟨.mark .semicolon, ";", ⟨"a.c", 1, 8⟩⟩]
    let y : Token := ⟨.identifier, "y", ⟨"a.c", 1, 10⟩⟩
    let semicolon : Token := ⟨.mark .semicolon, ";", ⟨"a.c", 1, 11⟩⟩
    let branch : Stmt := .ifThen ⟨"a.c", 1, 1⟩ (.name ⟨"a.c", 1, 4⟩ "x")
      (.expr ⟨"a.c", 1, 7⟩ (.number ⟨"a.c", 1, 7⟩ 1))
    ofTokens ts = .ok [branch] ∧
      ofTokens (ts ++ [y, semicolon]) =
        .ok [branch, .expr ⟨"a.c", 1, 10⟩ (.name ⟨"a.c", 1, 10⟩ "y")] ∧
      ofTokens (ts ++ [y]) = .error ⟨⟨"a.c", 1, 10⟩, .endOfInput "Semicolon"⟩ := by
  intro ts y semicolon branch
  have h : ofTokens ts = .ok [branch] := rfl
  exact ⟨h, ofTokens_append h rfl, ofTokens_append h rfl⟩

/-- The first syntax error is final. An error other than the end of the input is the error of all
longer token lists, with the same cause at the same place. -/
theorem ofTokens_append_of_error {ts : List Token} {d : Diagnostic} (h : ofTokens ts = .error d)
    (hd : ∀ expected, d.cause ≠ .endOfInput expected) (us : List Token) :
    ofTokens (ts ++ us) = .error d := by
  rw [ofTokens, ofRest] at h
  cases hrun : Parser.program ts with
  | ok program rest =>
    rw [hrun] at h
    cases h
  | error failure rest =>
    rw [hrun] at h
    cases h
    cases failure with
    | endOfInput expected => exact absurd rfl (hd expected)
    | fault d =>
      have hkept : Parser.program (ts ++ us) = (Parser.program ts).before us :=
        Parser.program_steady ts (by rw [hrun]; trivial)
      rw [hrun] at hkept
      rw [ofTokens, ofRest, hkept]
      rfl

/-- A void parameter is refused as soon as its name is read. -/
theorem ofTokens_append_of_error_void :
    let ts : List Token :=
      [⟨.keyword .intWord, "int", ⟨"a.c", 1, 1⟩⟩, ⟨.identifier, "f", ⟨"a.c", 1, 5⟩⟩,
       ⟨.mark .openParen, "(", ⟨"a.c", 1, 6⟩⟩, ⟨.keyword .voidWord, "void", ⟨"a.c", 1, 7⟩⟩,
       ⟨.identifier, "x", ⟨"a.c", 1, 12⟩⟩]
    let us : List Token :=
      [⟨.mark .closeParen, ")", ⟨"a.c", 1, 13⟩⟩, ⟨.mark .semicolon, ";", ⟨"a.c", 1, 14⟩⟩]
    ofTokens ts = .error ⟨⟨"a.c", 1, 7⟩, .voidParameter "x"⟩ ∧
      ofTokens (ts ++ us) = .error ⟨⟨"a.c", 1, 7⟩, .voidParameter "x"⟩ := by
  intro ts us
  have h : ofTokens ts = .error ⟨⟨"a.c", 1, 7⟩, .voidParameter "x"⟩ := rfl
  exact ⟨h, ofTokens_append_of_error h nofun us⟩

end Program

end WordC
