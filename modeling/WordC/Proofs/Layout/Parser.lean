import WordC.Parser.Stmt
import WordC.Proofs.Printer.Words

/-!
# Reading tokens without their positions

`Forgets f p q`: on tokens without positions, `q` does what `p` does on the tokens themselves, with
the positions forgotten in the value, in the failure and in the tokens that are left. The relation
has a rule for every way of putting parsers together, and each parser of the language stands in it
to itself, so the tree that tokens are read as depends on their positions only in its positions:
`Program.ofTokens_map_forget`.
-/

namespace WordC

/-- The token with the position that all tokens have when positions do not matter. -/
def Token.forget (t : Token) : Token := { t with pos := default }

@[simp] theorem Token.kind_forget (t : Token) : t.forget.kind = t.kind := rfl

@[simp] theorem Token.pos_forget (t : Token) : t.forget.pos = default := rfl

/-- Tokens that are spelled the same differ in their positions only. -/
theorem Token.map_forget_eq {ts us : List Token}
    (h : ts.map Token.spelling = us.map Token.spelling) :
    ts.map Token.forget = us.map Token.forget := by
  have hcomp :
      Token.forget = (fun w : Spelling => ⟨w.kind, w.text, default⟩) ∘ Token.spelling := rfl
  rw [hcomp, ← List.map_map, ← List.map_map, h]

/-- The diagnostic without its position. -/
def Diagnostic.forget (d : Diagnostic) : Diagnostic := { d with pos := default }

/-- The failure without its position. -/
def Failure.forget : Failure → Failure
  | .fault d => .fault d.forget
  | .endOfInput expected => .endOfInput expected

theorem Failure.cause_diagnostic_forget (stop stop' : Position) (failure : Failure) :
    (failure.forget.diagnostic stop).cause = (failure.diagnostic stop').cause := by
  cases failure <;> rfl

/-- The reply without positions, where `f` takes them out of its value. -/
def Reply.forget {α β : Type} (f : α → β) : Reply α → Reply β
  | .ok a rest => .ok (f a) (rest.map Token.forget)
  | .error failure rest => .error failure.forget (rest.map Token.forget)

namespace Parser

variable {α β γ δ ω ω' : Type}

/-- Without the positions of the tokens, `q` does what `p` does with them, up to positions. -/
def Forgets (f : α → β) (p : Parser α) (q : Parser β) : Prop :=
  ∀ ts, q (ts.map Token.forget) = (p ts).forget f

namespace Forgets

variable {f : α → β} {p : Parser α} {q : Parser β} {wanted : Token → Bool}

theorem pure {a : α} {b : β} (h : f a = b) :
    Forgets f (Pure.pure a : Parser α) (Pure.pure b : Parser β) := fun _ => h ▸ rfl

theorem bind {g : γ → δ} {k : α → Parser γ} {l : β → Parser δ} (h : Forgets f p q)
    (hk : ∀ a, Forgets g (k a) (l (f a))) : Forgets g (p >>= k) (q >>= l) := by
  intro ts
  rw [bind_apply, bind_apply, h ts]
  cases p ts with
  | ok a rest => exact hk a rest
  | error failure rest => rfl

theorem ite {c : Prop} [Decidable c] {p' : Parser α} {q' : Parser β} (h : Forgets f p q)
    (h' : Forgets f p' q') : Forgets f (if c then p else p') (if c then q else q') := by
  split
  · exact h
  · exact h'

/-! ### One token -/

theorem fault {pos pos' : Position} {cause : Cause} (h : pos' = default) :
    Forgets f (Parser.fault pos cause) (Parser.fault pos' cause) := fun _ => h ▸ rfl

theorem refuse (t : Token) (expected : String) :
    Forgets f (Parser.refuse t expected) (Parser.refuse t.forget expected) := fun _ => rfl

theorem peek (expected : String) :
    Forgets Token.forget (Parser.peek expected) (Parser.peek expected)
  | [] => rfl
  | _ :: _ => rfl

theorem token (expected : String) :
    Forgets Token.forget (Parser.token expected) (Parser.token expected)
  | [] => rfl
  | _ :: _ => rfl

theorem expect (hwanted : ∀ t : Token, wanted t.forget = wanted t) (expected : String) :
    Forgets Token.forget (Parser.expect wanted expected) (Parser.expect wanted expected)
  | [] => rfl
  | t :: rest => by
    simp only [List.map_cons, Parser.expect, hwanted]
    split <;> rfl

theorem mark (m : Mark) : Forgets Token.forget (Parser.mark m) (Parser.mark m) :=
  expect (fun _ => rfl) _

theorem keyword (k : Keyword) : Forgets Token.forget (Parser.keyword k) (Parser.keyword k) :=
  expect (fun _ => rfl) _

theorem identifier : Forgets Token.forget Parser.identifier Parser.identifier :=
  expect (fun _ => rfl) _

theorem accept (hwanted : ∀ t : Token, wanted t.forget = wanted t) :
    Forgets (Option.map Token.forget) (Parser.accept wanted) (Parser.accept wanted)
  | [] => rfl
  | t :: rest => by
    simp only [List.map_cons, Parser.accept, hwanted]
    split <;> rfl

theorem next (hwanted : ∀ t : Token, wanted t.forget = wanted t) :
    Forgets id (Parser.next wanted) (Parser.next wanted)
  | [] => rfl
  | t :: rest => by simp [Parser.next, Reply.forget, hwanted]

/-! ### Repetition -/

/-- A value and those behind it. -/
theorem cons {ps : Parser (List α)} {qs : Parser (List β)} (h : Forgets f p q)
    (hs : Forgets (List.map f) ps qs) :
    Forgets (List.map f)
      (do
        let a ← p
        let as ← ps
        Pure.pure (a :: as))
      (do
        let b ← q
        let bs ← qs
        Pure.pure (b :: bs)) :=
  .bind h fun _ => .bind hs fun _ => .pure rfl

section Many

variable {select : Token → Option ω} {select' : Token → Option ω'} {phrase : ω → Parser α}
  {phrase' : ω' → Parser β} {g : ω → ω'}

theorem manyWithin (hselect : ∀ t : Token, select' t.forget = (select t).map g)
    (h : ∀ w, Forgets f (phrase w) (phrase' (g w))) : ∀ bound : List Token,
    Forgets (List.map f) (Parser.manyWithin select phrase bound)
      (Parser.manyWithin select' phrase' (bound.map Token.forget))
  | [] => fun _ => rfl
  | _ :: bound => by
    intro ts
    cases ts with
    | nil => rfl
    | cons t rest =>
      simp only [List.map_cons, Parser.manyWithin, hselect]
      -- the phrase may read more than one token, the bound still gets shorter by one
      cases select t with
      | none => rfl
      | some w => exact cons (h w) (manyWithin hselect h bound) rest

theorem many (hselect : ∀ t : Token, select' t.forget = (select t).map g)
    (h : ∀ w, Forgets f (phrase w) (phrase' (g w))) :
    Forgets (List.map f) (Parser.many select phrase) (Parser.many select' phrase') :=
  fun ts => manyWithin hselect h ts ts

end Many

/-- The phrases behind a mark. -/
theorem manyOnMark (m : Mark) (h : Forgets f p q) :
    Forgets (List.map f) (Parser.many (onMark m) fun _ => p) (Parser.many (onMark m) fun _ => q) :=
  many (fun _ => Option.map_id_apply.symm) fun _ => h

theorem itemsWithin {stop : Token → Bool} (hstop : ∀ t : Token, stop t.forget = stop t)
    (h : Forgets f p q) : ∀ bound : List Token,
    Forgets (List.map f) (Parser.itemsWithin stop p bound)
      (Parser.itemsWithin stop q (bound.map Token.forget))
  | [] => fun _ => rfl
  | _ :: bound => by
    intro ts
    cases ts with
    | nil => rfl
    | cons t rest =>
      simp only [List.map_cons, Parser.itemsWithin, hstop]
      split
      · rfl
      · exact cons h (itemsWithin hstop h bound) (t :: rest)

theorem itemsUntil {stop : Token → Bool} (hstop : ∀ t : Token, stop t.forget = stop t)
    (h : Forgets f p q) :
    Forgets (List.map f) (Parser.itemsUntil stop p) (Parser.itemsUntil stop q) :=
  fun ts => itemsWithin hstop h ts ts

theorem commaList (h : Forgets f p q) :
    Forgets (List.map f) (Parser.commaList p) (Parser.commaList q) :=
  .bind (next fun _ => rfl) fun _ => .ite (.pure rfl) (cons h (manyOnMark _ h))

end Forgets

end Parser

/-! ### Trees -/

namespace Parser

theorem atom?_forget (t : Token) : atom? t.forget = (atom? t).map Expr.forget := by
  cases t with
  | mk kind text pos =>
    cases kind with
    | keyword k => cases k <;> rfl
    | _ => simp [atom?, Token.forget, Expr.forget]

theorem prefixOp?_forget (t : Token) :
    prefixOp? t.forget = (prefixOp? t).map fun op => (op.1, default) := by
  cases t with
  | mk kind text pos =>
    cases kind with
    | mark m => cases m <;> rfl
    | _ => rfl

theorem applyCalls_forget (callee : Expr) (calls : List (List Expr)) :
    (applyCalls callee calls).forget =
      applyCalls callee.forget (calls.map (List.map Expr.forget)) := by
  induction calls generalizing callee with
  | nil => rfl
  | cons args calls ih =>
    have hcall := ih (.call callee.pos callee args)
    simpa [applyCalls, Expr.forget, Expr.forgetAll_eq_map] using hcall

theorem applyPrefixes_forget (ops : List (UnaryOp × Position)) (operand : Expr) :
    (applyPrefixes ops operand).forget =
      applyPrefixes (ops.map fun op => (op.1, default)) operand.forget := by
  induction ops with
  | nil => rfl
  | cons op ops ih => simpa [applyPrefixes, Expr.forget] using ih

theorem joinLeft_forget (first : Expr) (others : List (BinaryOp × Expr)) :
    (joinLeft first others).forget =
      joinLeft first.forget (others.map fun operand => (operand.1, operand.2.forget)) := by
  induction others generalizing first with
  | nil => rfl
  | cons operand others ih =>
    have hnode := ih (.binary first.pos operand.1 first operand.2)
    simpa [joinLeft, Expr.forget] using hnode

theorem joinLogical_forget (op : LogicalOp) (first : Expr) (others : List Expr) :
    (joinLogical op first others).forget =
      joinLogical op first.forget (others.map Expr.forget) := by
  cases others with
  | nil => rfl
  | cons e es => simp [joinLogical, Expr.forget, Expr.forgetAll_eq_map]

theorem joinAssign_forget (first : Expr) (others : List Expr) :
    (joinAssign first others).forget = joinAssign first.forget (others.map Expr.forget) := by
  induction others generalizing first with
  | nil => rfl
  | cons e es ih => simp [joinAssign, Expr.forget, ih]

/-! ### Levels of expressions -/

section Levels

variable {inner inner' : Parser Expr}

theorem primaryLevel_forgets (h : Forgets Expr.forget inner inner') :
    Forgets Expr.forget (primaryLevel inner) (primaryLevel inner') := by
  refine .bind (.token _) fun t => ?_
  rw [atom?_forget]
  cases atom? t with
  | some e => exact .pure rfl
  | none =>
    refine .ite ?_ (.refuse t _)
    exact .bind h fun _ => .bind (.mark _) fun _ => .pure rfl

theorem callLevel_forgets (h : Forgets Expr.forget inner inner') :
    Forgets Expr.forget (callLevel inner) (callLevel inner') := by
  have harguments : Forgets (List.map Expr.forget) (arguments inner) (arguments inner') :=
    .bind (.commaList h) fun _ => .bind (.mark _) fun _ => .pure rfl
  refine .bind (primaryLevel_forgets h) fun callee => ?_
  exact .bind (.manyOnMark _ harguments) fun calls => .pure (applyCalls_forget callee calls)

theorem unaryLevel_forgets (h : Forgets Expr.forget inner inner') :
    Forgets Expr.forget (unaryLevel inner) (unaryLevel inner') := by
  refine .bind (.many prefixOp?_forget fun _ => .pure rfl) fun ops => ?_
  exact .bind (callLevel_forgets h) fun operand => .pure (applyPrefixes_forget ops operand)

theorem leftChain_forgets {op? : Token → Option BinaryOp}
    (hop : ∀ t : Token, op? t.forget = op? t) {operand operand' : Parser Expr}
    (h : Forgets Expr.forget operand operand') :
    Forgets Expr.forget (leftChain op? operand) (leftChain op? operand') := by
  have hselect (t : Token) : op? t.forget = (op? t).map id := by rw [hop, Option.map_id_apply]
  refine .bind h fun first => .bind (.many hselect fun op => ?_) fun others =>
    .pure (joinLeft_forget first others)
  exact .bind h fun _ => .pure rfl

theorem logicalChain_forgets (m : Mark) (op : LogicalOp) {operand operand' : Parser Expr}
    (h : Forgets Expr.forget operand operand') :
    Forgets Expr.forget (logicalChain m op operand) (logicalChain m op operand') :=
  .bind h fun first => .bind (.manyOnMark _ h) fun others =>
    .pure (joinLogical_forget op first others)

theorem assignLevel_forgets (h : Forgets Expr.forget inner inner') :
    Forgets Expr.forget (assignLevel inner) (assignLevel inner') := by
  -- from products up to `||`, each level is a chain of operands of the level below
  have hproduct : Forgets Expr.forget (productLevel inner) (productLevel inner') :=
    leftChain_forgets (fun _ => rfl) (unaryLevel_forgets h)
  have hsum : Forgets Expr.forget (sumLevel inner) (sumLevel inner') :=
    leftChain_forgets (fun _ => rfl) hproduct
  have hrelation : Forgets Expr.forget (relationLevel inner) (relationLevel inner') :=
    leftChain_forgets (fun _ => rfl) hsum
  have hequality : Forgets Expr.forget (equalityLevel inner) (equalityLevel inner') :=
    leftChain_forgets (fun _ => rfl) hrelation
  have hor : Forgets Expr.forget (orLevel inner) (orLevel inner') :=
    logicalChain_forgets _ _ (logicalChain_forgets _ _ hequality)
  exact .bind hor fun first => .bind (.manyOnMark _ hor) fun others =>
    .pure (joinAssign_forget first others)

theorem exprWithin_forgets : ∀ bound : List Token,
    Forgets Expr.forget (exprWithin bound) (exprWithin (bound.map Token.forget))
  | [] => fun _ => rfl
  | _ :: bound => assignLevel_forgets (exprWithin_forgets bound)

theorem expr_forgets : Forgets Expr.forget expr expr := fun ts => exprWithin_forgets ts ts

end Levels

/-! ### Declarations -/

theorem type_forgets : Forgets id type type := by
  refine .bind (.expect (fun _ => rfl) _) fun t => .bind (.accept fun _ => rfl) fun star? => ?_
  cases star? with
  | none => exact .pure rfl
  | some star =>
    refine .bind (.next fun _ => rfl) fun _ => .ite (.fault rfl) ?_
    have hty : typeOf? t.forget = typeOf? t := rfl
    rw [hty]
    cases ((typeOf? t).getD .void).pointer? with
    | some pointer => exact .pure rfl
    | none => exact .fault rfl

theorem parameter_forgets : Forgets id parameter parameter := by
  refine .bind (.peek _) fun first => .bind type_forgets fun ty => .bind .identifier fun name => ?_
  refine .ite (.fault rfl) (.bind (.next fun _ => rfl) fun _ => ?_)
  exact .ite (.fault rfl) (.pure rfl)

theorem parameters_forgets : Forgets id parameters parameters := by
  have hvoid : Forgets id startsVoidList startsVoidList := by
    intro ts
    match ts with
    | [] => rfl
    | [_] => rfl
    | _ :: _ :: _ => rfl
  have hparams : Forgets id (commaList parameter) (commaList parameter) := by
    simpa using Forgets.commaList parameter_forgets
  refine .bind (.mark _) fun _ => .bind hvoid fun _ => .ite ?_ ?_
  · exact .bind (.keyword _) fun _ => .bind (.mark _) fun _ => .pure rfl
  · exact .bind hparams fun _ => .bind (.mark _) fun _ => .pure rfl

theorem arrayCount_forgets (name : String) : Forgets id (arrayCount name) (arrayCount name) := by
  refine .bind (.mark _) fun _ => .bind (.expect (fun _ => rfl) _) fun size => ?_
  rw [Token.kind_forget]
  cases size.kind with
  | number n => exact .ite (.fault rfl) (.bind (.mark _) fun _ => .pure rfl)
  | _ => exact .fault rfl

variable {pos : Position}

theorem arrayDeclaration_forgets (constant : Bool) (elem : Ty) (name : String) :
    Forgets Stmt.forget (arrayDeclaration pos constant elem name)
      (arrayDeclaration default constant elem name) := by
  refine .bind (arrayCount_forgets name) fun count => ?_
  rw [id_eq]
  cases elem.array? count with
  | none => exact .fault rfl
  | some ty =>
    refine .bind (.accept fun _ => rfl) fun equal? => ?_
    cases equal? with
    | some equal => exact .fault rfl
    | none => exact .bind (.mark _) fun _ => .pure rfl

theorem initializedDeclaration_forgets (constant : Bool) (ty : Ty) (name : String) :
    Forgets Stmt.forget (initializedDeclaration pos constant ty name)
      (initializedDeclaration default constant ty name) := by
  refine .ite (.fault rfl) (.bind (.mark _) fun _ => ?_)
  exact .bind expr_forgets fun _ => .bind (.mark _) fun _ => .pure rfl

theorem bareDeclaration_forgets (constant : Bool) (ty : Ty) (name : String) :
    Forgets Stmt.forget (bareDeclaration pos constant ty name)
      (bareDeclaration default constant ty name) :=
  .ite (.fault rfl) (.bind (.mark _) fun _ => .pure rfl)

/-! ### Levels of statements -/

theorem exprUnless_forgets (m : Mark) :
    Forgets (Option.map Expr.forget) (exprUnless m) (exprUnless m) :=
  .bind (.next fun _ => rfl) fun _ => .ite (.pure rfl) (.bind expr_forgets fun _ => .pure rfl)

theorem condition_forgets : Forgets Expr.forget condition condition :=
  .bind (.mark _) fun _ => .bind expr_forgets fun _ => .bind (.mark _) fun _ => .pure rfl

section Nested

variable {inner inner' : Parser Stmt}

theorem functionLevel_forgets (h : Forgets Stmt.forget inner inner') (result : Ty) (name : String) :
    Forgets Stmt.forget (functionLevel inner pos result name)
      (functionLevel inner' default result name) := by
  refine .bind parameters_forgets fun params => .bind (.accept fun _ => rfl) fun semicolon? => ?_
  cases semicolon? with
  | some semicolon => exact .pure rfl
  | none => exact .bind h fun _ => .pure rfl

theorem declarationLevel_forgets (h : Forgets Stmt.forget inner inner') :
    Forgets Stmt.forget (declarationLevel inner) (declarationLevel inner') := by
  refine .bind (.peek _) fun first => .bind (.accept fun _ => rfl) fun const => ?_
  refine .bind type_forgets fun ty => .bind .identifier fun name => .bind (.peek _) fun t => ?_
  have hform : declarationForm? t.forget = declarationForm? t := rfl
  rw [hform, Option.isSome_map]
  cases declarationForm? t with
  | none => exact .refuse t _
  | some form =>
    cases form with
    | array => exact arrayDeclaration_forgets _ _ _
    | initialized => exact initializedDeclaration_forgets _ _ _
    | bare => exact bareDeclaration_forgets _ _ _
    | function => exact functionLevel_forgets h _ _

theorem itemLevel_forgets (h : Forgets Stmt.forget inner inner') :
    Forgets Stmt.forget (itemLevel inner) (itemLevel inner') :=
  .bind (.next fun _ => rfl) fun _ => .ite (declarationLevel_forgets h) h

theorem blockLevel_forgets (h : Forgets Stmt.forget inner inner') :
    Forgets Stmt.forget (blockLevel inner pos) (blockLevel inner' default) := by
  refine .bind (.mark _) fun _ => ?_
  refine .bind (.itemsUntil (fun _ => rfl) (itemLevel_forgets h)) fun items => ?_
  exact .bind (.mark _) fun _ => .pure (by rw [Stmt.forget, Stmt.forgetAll_eq_map])

theorem ifLevel_forgets (h : Forgets Stmt.forget inner inner') :
    Forgets Stmt.forget (ifLevel inner pos) (ifLevel inner' default) := by
  refine .bind (.keyword _) fun _ => .bind condition_forgets fun cond => .bind h fun yes => ?_
  refine .bind (.accept fun _ => rfl) fun else? => ?_
  cases else? with
  | none => exact .pure rfl
  | some word => exact .bind h fun _ => .pure rfl

theorem whileLevel_forgets (h : Forgets Stmt.forget inner inner') :
    Forgets Stmt.forget (whileLevel inner pos) (whileLevel inner' default) :=
  .bind (.keyword _) fun _ => .bind condition_forgets fun _ => .bind h fun _ => .pure rfl

theorem forLevel_forgets (h : Forgets Stmt.forget inner inner') :
    Forgets Stmt.forget (forLevel inner pos) (forLevel inner' default) := by
  refine .bind (.keyword _) fun _ => .bind (.mark _) fun _ => ?_
  refine .bind (exprUnless_forgets _) fun init => .bind (.mark _) fun _ => ?_
  refine .bind (exprUnless_forgets _) fun cond => .bind (.mark _) fun _ => ?_
  refine .bind (exprUnless_forgets _) fun step => .bind (.mark _) fun _ => ?_
  exact .bind h fun _ => .pure rfl

theorem returnStmt_forgets : Forgets Stmt.forget (returnStmt pos) (returnStmt default) := by
  refine .bind (.keyword _) fun _ => .bind (exprUnless_forgets _) fun value => ?_
  exact .bind (.mark _) fun _ => .pure rfl

theorem stmtLevel_forgets (h : Forgets Stmt.forget inner inner') :
    Forgets Stmt.forget (stmtLevel inner) (stmtLevel inner') := by
  refine .bind (.peek _) fun t => ?_
  have hform : stmtForm t.forget = stmtForm t := rfl
  rw [hform]
  cases stmtForm t with
  | block => exact blockLevel_forgets h
  | conditional => exact ifLevel_forgets h
  | whileLoop => exact whileLevel_forgets h
  | forLoop => exact forLevel_forgets h
  | ret => exact returnStmt_forgets
  | expr => exact .bind expr_forgets fun _ => .bind (.mark _) fun _ => .pure rfl

end Nested

theorem stmtWithin_forgets : ∀ bound : List Token,
    Forgets Stmt.forget (stmtWithin bound) (stmtWithin (bound.map Token.forget))
  | [] => fun _ => rfl
  | _ :: bound => stmtLevel_forgets (stmtWithin_forgets bound)

theorem stmt_forgets : Forgets Stmt.forget stmt stmt := fun ts => stmtWithin_forgets ts ts

theorem program_forgets : Forgets (List.map Stmt.forget) program program :=
  .itemsUntil (fun _ => rfl) (itemLevel_forgets stmt_forgets)

end Parser

/-- Tokens without positions are read as the same program without positions, or refused for the
same cause. -/
theorem Program.ofTokens_map_forget (tokens : List Token) :
    (Program.ofTokens (tokens.map Token.forget)).mapError Diagnostic.cause =
      ((Program.ofTokens tokens).map Stmt.forgetAll).mapError Diagnostic.cause := by
  rw [ofTokens, ofTokens, ofRest, ofRest, Parser.program_forgets tokens]
  cases Parser.program tokens with
  | ok program rest => exact congrArg Except.ok (Stmt.forgetAll_eq_map program).symm
  | error failure rest =>
    exact congrArg Except.error (Failure.cause_diagnostic_forget _ _ failure)

end WordC
