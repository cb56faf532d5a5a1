import WordC.Proofs.Grammar.Expr
import WordC.Proofs.Printer.Words
import WordC.Proofs.Progress.Descent

/-!
# The routines of the parser

The parser as a `Descent`. Its routines are the parsers for phrases and the loops: the items of a
program and those of a block, the prefix operators, the operators of a level with their right
operands, and the phrases behind a mark. The last are the further members of a comma list, the
operands of `&&`, `||` and `=`, and the calls behind a callee.

A loop calls itself behind each round, so what ends it is what ends every other recursion: the calls
that take no token go down a fixed chain, from a program to a primary expression (`Routine.chain`),
and the others have a token behind them. `Routine.script_spells` says so of all routines at once,
and that their scripts read what the parsers do.

Assignments and prefix operators group to the right, so the level of either could ask itself behind
its token: `level .assign` behind `=`, and `level .unary` behind an operator. Here both are loops,
as in the parser, and the tree is put together behind them. A round of such a loop begins where the
level would ask itself, behind the token, so the cursors of the calls are the same in both readings.
-/

namespace WordC

open Grammar (Level)

/-- The routines of the parser. -/
inductive Routine
  | program | item | declaration | stmt | type | parameter | parameters | expr | arguments
  /-- A level of expressions. -/
  | level (level : Level)
  /-- An expression, or none in front of a mark. -/
  | exprUnless (m : Mark)
  /-- The loop over the items of a block. -/
  | items
  /-- The loop over prefix operators. -/
  | prefixes
  /-- The loop over the operators of a level that groups to the left, and their right operands. -/
  | operations (level : Level)
  /-- The loop over phrases that have a mark in front. -/
  | series (m : Mark) (r : Routine)

namespace Routine

/-- What a routine returns. -/
def Value : Routine → Type
  | program => Program
  | items => List Stmt
  | item | declaration | stmt => Stmt
  | type => Ty
  | parameter => Param
  | parameters => List Param
  | expr | level _ => Expr
  | arguments => List Expr
  | exprUnless _ => Option Expr
  | prefixes => List (UnaryOp × Position)
  | operations _ => List (BinaryOp × Expr)
  | series _ r => List r.Value

/-- The parser of a routine. -/
def parser : (r : Routine) → Parser r.Value
  | program => Parser.program
  | items => Parser.itemsUntil (Parser.isMark .closeBrace) Parser.item
  | item => Parser.item
  | declaration => Parser.declaration
  | stmt => Parser.stmt
  | type => Parser.type
  | parameter => Parser.parameter
  | parameters => Parser.parameters
  | expr => Parser.expr
  | level l => l.parser
  | arguments => Parser.arguments Parser.expr
  | exprUnless m => Parser.exprUnless m
  | prefixes => Parser.many Parser.prefixOp? pure
  | operations l => Parser.many l.op? fun op => do
    let e ← l.operand.parser
    pure (op, e)
  | series m r => Parser.many (Parser.onMark m) fun _ => r.parser

/-- The place in the chain of calls that take no token. -/
def rank : Routine → Nat
  | type | parameters | prefixes | operations _ | series _ _ => 0
  | parameter => 1
  | level l => 9 - l.rank
  | expr => 10
  | stmt | declaration | arguments | exprUnless _ => 11
  | item => 12
  | program | items => 13

/-- Does the routine take a token wherever it succeeds? -/
def takes : Routine → Bool
  | item | declaration | stmt | type | parameter | parameters | expr | level _ | arguments => true
  | program | items | exprUnless _ | prefixes | operations _ | series _ _ => false

/-- The longest chain of routines that call each other in front of the same token. -/
def chain : List Routine :=
  [program, item, stmt, expr, level .assign, level .or, level .and, level .equality,
    level .relation, level .sum, level .product, level .unary, level .call, level .primary]

theorem rank_lt (r : Routine) : r.rank < chain.length := by
  cases r with
  | level l => cases l <;> decide
  | _ => simp [rank, chain]

end Routine

/-- The routines with their places in the chain. -/
def routines : Routines Routine.Value where
  parser := Routine.parser
  levels := Routine.chain.length
  rank := Routine.rank
  rank_lt := Routine.rank_lt
  takes := Routine.takes

/-! ### Scripts -/

namespace Script

open WordC.Parser (isMark isKeyword isNumber atom? applyCalls applyPrefixes joinLeft joinLogical
  joinAssign typeOf? declarationForm? declaratorEnds stmtForm)

/-- The value of a routine of the parser. -/
abbrev ask (r : Routine) : Script Routine.Value r.Value := routine r

/-- Do the tokens begin with `void )`? -/
def startsVoidList : Script Routine.Value Bool :=
  look fun first second =>
    done (first.any (isKeyword .voidWord) && second.any (isMark .closeParen))

def primary : Script Routine.Value Expr := do
  let t ← expect (fun _ => true) "expression"
  match atom? t with
  | some e => pure e
  | none =>
    if isMark .openParen t then
      let e ← ask .expr
      let _ ← mark .closeParen
      pure e
    else
      refuse t "expression"

def level : Level → Script Routine.Value Expr
  | .primary => primary
  | .call => do
    let callee ← ask (.level .primary)
    let calls ← ask (.series .openParen .arguments)
    pure (applyCalls callee calls)
  | .unary => do
    let ops ← ask .prefixes
    let operand ← ask (.level .call)
    pure (applyPrefixes ops operand)
  | .and => do
    let first ← ask (.level .equality)
    let others ← ask (.series .ampAmp (.level .equality))
    pure (joinLogical .and first others)
  | .or => do
    let first ← ask (.level .and)
    let others ← ask (.series .barBar (.level .and))
    pure (joinLogical .or first others)
  | .assign => do
    let first ← ask (.level .or)
    let others ← ask (.series .equal (.level .or))
    pure (joinAssign first others)
  | l => do
    let first ← ask (.level l.operand)
    let others ← ask (.operations l)
    pure (joinLeft first others)

def type : Script Routine.Value Ty := do
  let t ← expect (fun t => (typeOf? t).isSome) "type"
  let ty := (typeOf? t).getD .void
  match ← accept (isMark .star) with
  | none => pure ty
  | some star =>
    if ← next (isMark .star) then
      fault star.pos (.unsupportedType (ty.text ++ "**"))
    else
      match ty.pointer? with
      | some pointer => pure pointer
      | none => fault star.pos (.unsupportedType (ty.text ++ "*"))

def parameter : Script Routine.Value Param := do
  let first ← peek "parameter"
  let ty : Ty ← ask .type
  let name ← identifier
  if ty.isVoid then
    fault first.pos (.voidParameter name.text)
  else if ← next (isMark .openBracket) then
    fault first.pos (.arrayParameter name.text)
  else
    pure ⟨name.text, ty⟩

def parameters : Script Routine.Value (List Param) := do
  let _ ← mark .openParen
  if ← startsVoidList then
    let _ ← keyword .voidWord
    let _ ← mark .closeParen
    pure []
  else
    let params ← commaList (ask .parameter) (ask (.series .comma .parameter))
    let _ ← mark .closeParen
    pure params

def arrayCount (name : String) : Script Routine.Value Nat := do
  let _ ← mark .openBracket
  let size ← expect isNumber "array size"
  match size.kind with
  | .number n =>
    if n = 0 then
      fault size.pos (.badArraySize name)
    else
      let _ ← mark .closeBracket
      pure n.toNat
  | _ => fault size.pos (.badArraySize name)

def declaration : Script Routine.Value Stmt := do
  let first ← peek "declaration"
  let const ← accept (isKeyword .constWord)
  let ty : Ty ← ask .type
  let name ← identifier
  let t ← peek declaratorEnds
  match declarationForm? t with
  | some .array =>
    let count ← arrayCount name.text
    match ty.array? count with
    | none => fault first.pos (.voidArray name.text)
    | some ty =>
      match ← accept (isMark .equal) with
      | some equal => fault equal.pos (.arrayInitializer name.text)
      | none =>
        let _ ← mark .semicolon
        pure (.var first.pos ⟨name.text, ty, const.isSome, none⟩)
  | some .initialized =>
    if ty.isVoid then
      fault first.pos (.voidVariable name.text)
    else
      let _ ← mark .equal
      let init ← ask .expr
      let _ ← mark .semicolon
      pure (.var first.pos ⟨name.text, ty, const.isSome, some init⟩)
  | some .bare =>
    if ty.isVoid then
      fault first.pos (.voidVariable name.text)
    else
      let _ ← mark .semicolon
      pure (.var first.pos ⟨name.text, ty, const.isSome, none⟩)
  | some .function =>
    let params ← ask .parameters
    match ← accept (isMark .semicolon) with
    | some _ => pure (.prototype first.pos ⟨name.text, ty, params⟩)
    | none =>
      let body ← ask .stmt
      pure (.function first.pos ⟨name.text, ty, params⟩ body)
  | none => refuse t declaratorEnds

def condition : Script Routine.Value Expr := do
  let _ ← mark .openParen
  let cond ← ask .expr
  let _ ← mark .closeParen
  pure cond

def stmt : Script Routine.Value Stmt := do
  let t ← peek "statement"
  match stmtForm t with
  | .block =>
    let _ ← mark .openBrace
    let items ← ask .items
    let _ ← mark .closeBrace
    pure (.block t.pos items)
  | .conditional =>
    let _ ← keyword .ifWord
    let cond ← condition
    let yes ← ask .stmt
    match ← accept (isKeyword .elseWord) with
    | none => pure (.ifThen t.pos cond yes)
    | some _ =>
      let no ← ask .stmt
      pure (.ifElse t.pos cond yes no)
  | .whileLoop =>
    let _ ← keyword .whileWord
    let cond ← condition
    let body ← ask .stmt
    pure (.whileLoop t.pos cond body)
  | .forLoop =>
    let _ ← keyword .forWord
    let _ ← mark .openParen
    let init ← ask (.exprUnless .semicolon)
    let _ ← mark .semicolon
    let cond ← ask (.exprUnless .semicolon)
    let _ ← mark .semicolon
    let step ← ask (.exprUnless .closeParen)
    let _ ← mark .closeParen
    let body ← ask .stmt
    pure (.forLoop t.pos init cond step body)
  | .ret =>
    let _ ← keyword .returnWord
    let value ← ask (.exprUnless .semicolon)
    let _ ← mark .semicolon
    pure (.ret t.pos value)
  | .expr =>
    let value ← ask .expr
    let _ ← mark .semicolon
    pure (.expr t.pos value)

end Script

/-- The script of a routine. -/
def Routine.script : (r : Routine) → Script Routine.Value r.Value
  | program => .itemRound (fun _ => false) (.ask .item) (.ask .program)
  | items => .itemRound (Parser.isMark .closeBrace) (.ask .item) (.ask .items)
  | item => do
    if ← .next Token.startsDeclaration then .ask .declaration else .ask .stmt
  | declaration => .declaration
  | stmt => .stmt
  | type => .type
  | parameter => .parameter
  | parameters => .parameters
  | expr => .ask (.level .assign)
  | level l => .level l
  | arguments => do
    let args ← .commaList (.ask .expr) (.ask (.series .comma .expr))
    let _ ← .mark .closeParen
    pure args
  | exprUnless m => do
    if ← .next (Parser.isMark m) then
      pure none
    else
      let e ← .ask .expr
      pure (some e)
  | prefixes => .round Parser.prefixOp? pure (.ask .prefixes)
  | operations l => .round l.op? (fun op => do
      let e ← .ask (.level l.operand)
      pure (op, e)) (.ask (.operations l))
  | series m r => .round (Parser.onMark m) (fun _ => .ask r) (.ask (.series m r))

/-! ### The scripts spell the parsers out -/

namespace Routine

open Script (Spells)

/-- None of the parsers takes a token back. -/
theorem parser_consumes (r : Routine) : Parser.Consumes r.parser := by
  have hexpr := Parser.expr_advances.consumes
  induction r with
  | program | items => exact .itemsUntil _ Parser.item_advances.consumes
  | item => exact Parser.item_advances.consumes
  | declaration => exact (Parser.declarationLevel_advances Parser.stmt_advances.consumes).consumes
  | stmt => exact Parser.stmt_advances.consumes
  | type => exact Parser.type_advances.consumes
  | parameter => exact Parser.parameter_advances.consumes
  | parameters => exact Parser.parameters_advances.consumes
  | expr => exact hexpr
  | level l => exact l.parser_consumes
  | arguments => exact Parser.arguments_consumes hexpr
  | exprUnless m => exact Parser.exprUnless_consumes m
  | prefixes => exact Parser.prefixes_consumes
  | operations l => exact .many _ fun op => Parser.operand_consumes l.operand.parser_consumes op
  | series m r ih => exact .many _ fun _ => ih

variable {bound : Nat}

/-- Behind a token every routine can be called. -/
theorem ask_spells (r : Routine) : Spells routines bound true (.ask r) r.parser true :=
  .routine r (.inl rfl)

/-- In front of it, those of lower ranks. -/
theorem ask_spells_of_lt (r : Routine) (h : r.rank < bound) :
    Spells routines bound false (.ask r) r.parser r.takes :=
  .routine r (.inr h)

/-! ### Expressions -/

theorem primary_spells : Spells routines 0 false .primary Parser.primary true := by
  have htoken : Parser.token "expression" = Parser.expect (fun _ => true) "expression" := by
    funext ts
    cases ts <;> rfl
  unfold Parser.primary Parser.primaryLevel
  rw [htoken]
  -- A token is taken before anything is called, so an expression in parentheses is behind it.
  refine .bind (.expect _ _) fun t => ?_
  cases Parser.atom? t with
  | some e => exact .pure e
  | none =>
    refine .ite ?_ (.refuse t _)
    exact .bind (ask_spells .expr) fun e => .bind (.mark _) fun _ => .pure e

theorem level_spells (l : Level) :
    Spells routines (level l).rank false (level l).script (level l).parser true := by
  cases l with
  | primary => exact primary_spells
  | call =>
    exact .bind (ask_spells_of_lt (level .primary) (by decide)) fun callee =>
      .bind (ask_spells (series .openParen arguments)) fun calls => .pure _
  | unary =>
    exact .bind (ask_spells_of_lt prefixes (by decide)) fun ops =>
      .bind (ask_spells_of_lt (level .call) (by decide)) fun operand => .pure _
  | product | sum | relation | equality =>
    exact .bind (ask_spells_of_lt (level (Level.operand _)) (by decide)) fun first =>
      .bind (ask_spells (operations _)) fun others => .pure _
  | and =>
    exact .bind (ask_spells_of_lt (level .equality) (by decide)) fun first =>
      .bind (ask_spells (series .ampAmp (level .equality))) fun others => .pure _
  | or =>
    exact .bind (ask_spells_of_lt (level .and) (by decide)) fun first =>
      .bind (ask_spells (series .barBar (level .and))) fun others => .pure _
  | assign =>
    exact .bind (ask_spells_of_lt (level .or) (by decide)) fun first =>
      .bind (ask_spells (series .equal (level .or))) fun others => .pure _

theorem expr_spells : Spells routines 10 false expr.script Parser.expr true := by
  rw [Parser.expr_eq]
  exact ask_spells_of_lt (level .assign) (by decide)

theorem exprUnless_spells (m : Mark) :
    Spells routines 11 false (exprUnless m).script (Parser.exprUnless m) false := by
  refine .bind (.next _) fun closed => .ite (.pure none) ?_
  exact .bind (ask_spells_of_lt expr (by decide)) fun e => .pureBehind (some e)

theorem arguments_spells :
    Spells routines 11 false arguments.script (Parser.arguments Parser.expr) true := by
  have hfirst : Spells routines 11 false (.ask expr) Parser.expr true :=
    ask_spells_of_lt expr (by decide)
  refine .bind (.commaList hfirst (ask_spells (series .comma expr))) fun args => ?_
  exact .bind (.mark _) fun _ => .pure args

/-! ### Declarations -/

theorem type_spells : Spells routines 0 false .type Parser.type true := by
  refine .bind (.expect _ _) fun t => .bind (.accept _) fun star? => ?_
  cases star? with
  | none => exact .pure _
  | some star =>
    refine .bind (.next _) fun more => .ite (.fault _ _) ?_
    cases ((Parser.typeOf? t).getD .void).pointer? with
    | some pointer => exact .pure pointer
    | none => exact .fault _ _

theorem parameter_spells : Spells routines 1 false .parameter Parser.parameter true := by
  refine .bind (.peek _) fun first => .bind (ask_spells_of_lt type (by decide)) fun ty => ?_
  refine .bind .identifier fun name => .ite (.fault _ _) ?_
  exact .bind (.next _) fun bracket => .ite (.fault _ _) (.pure _)

theorem parameters_spells : Spells routines 0 false .parameters Parser.parameters true := by
  refine .bind (.mark _) fun _ => ?_
  have hvoid : Spells routines 0 true .startsVoidList Parser.startsVoidList true :=
    ⟨rfl, fun _ _ => id⟩
  refine .bind hvoid fun void => .ite ?_ ?_
  · exact .bind (.keyword _) fun _ => .bind (.mark _) fun _ => .pure []
  · exact .bind (.commaList (ask_spells parameter) (ask_spells (series .comma parameter)))
      fun params => .bind (.mark _) fun _ => .pure params

theorem arrayCount_spells (name : String) :
    Spells routines 11 true (.arrayCount name) (Parser.arrayCount name) true := by
  refine .bind (.mark _) fun _ => .bind (.expect _ _) fun size => ?_
  cases size.kind with
  | number n => exact .ite (.fault _ _) (.bind (.mark _) fun _ => .pure _)
  | _ => exact .fault _ _

theorem declaration_spells : Spells routines 11 false .declaration Parser.declaration true := by
  refine .bind (.peek _) fun first => .bind (.accept _) fun const => ?_
  refine .bind (ask_spells_of_lt type (by decide)) fun ty => .bind .identifier fun name => ?_
  refine .bind (.peek _) fun t => ?_
  cases Parser.declarationForm? t with
  | none => exact .refuse t _
  | some form =>
    -- The type and the name have been taken here, so that all further calls are free.
    cases form with
    | array =>
      refine .bind (arrayCount_spells name.text) fun count => ?_
      cases Ty.array? count ty with
      | none => exact .fault _ _
      | some ty =>
        refine .bind (.accept _) fun equal? => ?_
        cases equal? with
        | some equal => exact .fault _ _
        | none => exact .bind (.mark _) fun _ => .pure _
    | initialized =>
      refine .ite (.fault _ _) (.bind (.mark _) fun _ => ?_)
      exact .bind (ask_spells expr) fun init => .bind (.mark _) fun _ => .pure _
    | bare => exact .ite (.fault _ _) (.bind (.mark _) fun _ => .pure _)
    | function =>
      refine .bind (ask_spells parameters) fun params => .bind (.accept _) fun semicolon? => ?_
      cases semicolon? with
      | some semicolon => exact .pure _
      | none => exact .bind (ask_spells stmt) fun body => .pure _

/-! ### Statements -/

theorem condition_spells : Spells routines 11 true .condition Parser.condition true :=
  .bind (.mark _) fun _ => .bind (ask_spells expr) fun _ => .bind (.mark _) fun _ => .pure _

theorem stmt_spells : Spells routines 11 false .stmt Parser.stmt true := by
  rw [Parser.stmt_eq]
  refine .bind (.peek _) fun t => ?_
  cases Parser.stmtForm t with
  | block =>
    exact .bind (.mark _) fun _ => .bind (ask_spells items) fun _ =>
      .bind (.mark _) fun _ => .pure _
  | conditional =>
    refine .bind (.keyword _) fun _ => .bind condition_spells fun cond => ?_
    refine .bind (ask_spells stmt) fun yes => .bind (.accept _) fun else? => ?_
    cases else? with
    | none => exact .pure _
    | some word => exact .bind (ask_spells stmt) fun no => .pure _
  | whileLoop =>
    exact .bind (.keyword _) fun _ => .bind condition_spells fun _ =>
      .bind (ask_spells stmt) fun _ => .pure _
  | forLoop =>
    refine .bind (.keyword _) fun _ => .bind (.mark _) fun _ => ?_
    refine .bind (ask_spells (exprUnless _)) fun _ => .bind (.mark _) fun _ => ?_
    refine .bind (ask_spells (exprUnless _)) fun _ => .bind (.mark _) fun _ => ?_
    refine .bind (ask_spells (exprUnless _)) fun _ => .bind (.mark _) fun _ => ?_
    exact .bind (ask_spells stmt) fun _ => .pure _
  | ret =>
    exact .bind (.keyword _) fun _ => .bind (ask_spells (exprUnless _)) fun _ =>
      .bind (.mark _) fun _ => .pure _
  | expr =>
    exact .bind (ask_spells_of_lt expr (by decide)) fun _ => .bind (.mark _) fun _ => .pure _

/-- Every script reads what its parser reads, and goes down the chain until it has taken a token. -/
theorem script_spells (r : Routine) :
    Spells routines r.rank false r.script r.parser r.takes := by
  cases r with
  | program =>
    exact .itemRound _ Parser.item_advances (ask_spells_of_lt item (by decide)) (ask_spells program)
  | items =>
    exact .itemRound _ Parser.item_advances (ask_spells_of_lt item (by decide)) (ask_spells items)
  | item =>
    exact .bind (.next _) fun declares =>
      .ite (ask_spells_of_lt declaration (by decide)) (ask_spells_of_lt stmt (by decide))
  | declaration => exact declaration_spells
  | stmt => exact stmt_spells
  | type => exact type_spells
  | parameter => exact parameter_spells
  | parameters => exact parameters_spells
  | expr => exact expr_spells
  | level l => exact level_spells l
  | arguments => exact arguments_spells
  | exprUnless m => exact exprUnless_spells m
  | prefixes => exact .round _ (fun w => .pure w) (fun w => .pure w) (ask_spells prefixes)
  | operations l =>
    refine .round _ (fun op => Parser.operand_consumes l.operand.parser_consumes op) (fun op => ?_)
      (ask_spells (operations l))
    exact .bind (ask_spells (level l.operand)) fun e => .pure (op, e)
  | series m r =>
    exact .round _ (fun _ => r.parser_consumes) (fun _ => ask_spells r) (ask_spells (series m r))

end Routine

/-- The parser, as a descent along its chain. -/
def descent : Descent Routine.Value where
  toRoutines := routines
  script := Routine.script
  spells := Routine.script_spells

end WordC
