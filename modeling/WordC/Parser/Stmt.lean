import WordC.Parser.Expr
import WordC.Stmt

/-!
# Reading statements and programs

A program is a sequence of items, an item is a declaration or a statement. Only blocks and programs
have items; the branches of an `if`, the bodies of loops and of functions are statements.

As for expressions, the parsers take the parser for the statements inside them as an argument, and
`stmt` ties the knot.

`Program.ofTokens` reads a whole token list.
-/

namespace WordC.Parser

/-- The type that a token names. -/
def typeOf? (t : Token) : Option Ty :=
  match t.kind with
  | .keyword .intWord => some .int
  | .keyword .charWord => some .char
  | .keyword .voidWord => some .void
  | _ => none

/-- A type name with at most one star behind it. -/
def type : Parser Ty := do
  let t ← expect (fun t => (typeOf? t).isSome) "type"
  let ty := (typeOf? t).getD .void
  match ← accept (isMark .star) with
  | none => pure ty
  | some star =>
    if ← next (isMark .star) then
      fault star.pos (.unsupportedType (ty.text ++ "**"))
    else
      match ty.pointer? with
      | some pointer => pure pointer
      | none => fault star.pos (.unsupportedType (ty.text ++ "*"))

/-- A parameter: a type that is neither void nor an array, and a name. -/
def parameter : Parser Param := do
  let first ← peek "parameter"
  let ty ← type
  let name ← identifier
  if ty.isVoid then
    fault first.pos (.voidParameter name.text)
  else if ← next (isMark .openBracket) then
    fault first.pos (.arrayParameter name.text)
  else
    pure ⟨name.text, ty⟩

/-- Do the tokens begin with `void )`? -/
def startsVoidList : Parser Bool := fun ts =>
  .ok (ts.head?.any (isKeyword .voidWord) && ts[1]?.any (isMark .closeParen)) ts

/-- The parameters of a function in their parentheses; `(void)` means none. -/
def parameters : Parser (List Param) := do
  let _ ← mark .openParen
  if ← startsVoidList then
    let _ ← keyword .voidWord
    let _ ← mark .closeParen
    pure []
  else
    let params ← commaList parameter
    let _ ← mark .closeParen
    pure params

/-- The count of an array in its brackets; it is at least one. -/
def arrayCount (name : String) : Parser Nat := do
  let _ ← mark .openBracket
  let size ← expect isNumber "array size"
  match size.kind with
  | .number n =>
    if n = 0 then
      fault size.pos (.badArraySize name)
    else
      let _ ← mark .closeBracket
      pure n.toNat
  | _ => fault size.pos (.badArraySize name)

/-- What a declaration declares, which shows in the token behind its name. -/
inductive DeclarationForm
  | array | initialized | bare | function
deriving DecidableEq, Repr

/-- The form of a declaration with the given token behind its name. -/
def declarationForm? (t : Token) : Option DeclarationForm :=
  match t.kind with
  | .mark .openBracket => some .array
  | .mark .equal => some .initialized
  | .mark .semicolon => some .bare
  | .mark .openParen => some .function
  | _ => none

/-- What can follow the name in a declaration. -/
def declaratorEnds : String := "`[`, `=`, `;` or `(`"

/-- The rest of an array declaration, from its bracket on. -/
def arrayDeclaration (pos : Position) (constant : Bool) (elem : Ty) (name : String) :
    Parser Stmt := do
  let count ← arrayCount name
  match elem.array? count with
  | none => fault pos (.voidArray name)
  | some ty =>
    match ← accept (isMark .equal) with
    | some equal => fault equal.pos (.arrayInitializer name)
    | none =>
      let _ ← mark .semicolon
      pure (.var pos ⟨name, ty, constant, none⟩)

/-- The rest of the declaration of a variable with an initial value, from the `=` on. -/
def initializedDeclaration (pos : Position) (constant : Bool) (ty : Ty) (name : String) :
    Parser Stmt :=
  if ty.isVoid then
    fault pos (.voidVariable name)
  else do
    let _ ← mark .equal
    let init ← expr
    let _ ← mark .semicolon
    pure (.var pos ⟨name, ty, constant, some init⟩)

/-- The rest of the declaration of a variable without an initial value: its semicolon. -/
def bareDeclaration (pos : Position) (constant : Bool) (ty : Ty) (name : String) : Parser Stmt :=
  if ty.isVoid then
    fault pos (.voidVariable name)
  else do
    let _ ← mark .semicolon
    pure (.var pos ⟨name, ty, constant, none⟩)

/-- The forms of statements, which show in their first tokens. -/
inductive StmtForm
  | block | conditional | whileLoop | forLoop | ret | expr
deriving DecidableEq, Repr

/-- The form of a statement with the given first token. -/
def stmtForm (t : Token) : StmtForm :=
  match t.kind with
  | .mark .openBrace => .block
  | .keyword .ifWord => .conditional
  | .keyword .whileWord => .whileLoop
  | .keyword .forWord => .forLoop
  | .keyword .returnWord => .ret
  | _ => .expr

/-- An expression, or none if the given mark comes next. -/
def exprUnless (m : Mark) : Parser (Option Expr) := do
  if ← next (isMark m) then
    pure none
  else
    let e ← expr
    pure (some e)

section Nested

variable (inner : Parser Stmt)

/-- The rest of a function, from its parameters on. -/
def functionLevel (pos : Position) (result : Ty) (name : String) : Parser Stmt := do
  let params ← parameters
  match ← accept (isMark .semicolon) with
  | some _ => pure (.prototype pos ⟨name, result, params⟩)
  | none =>
    let body ← inner
    pure (.function pos ⟨name, result, params⟩ body)

/-- A declaration of a variable or a function. -/
def declarationLevel : Parser Stmt := do
  let first ← peek "declaration"
  let const ← accept (isKeyword .constWord)
  let ty ← type
  let name ← identifier
  let t ← peek declaratorEnds
  match declarationForm? t with
  | some .array => arrayDeclaration first.pos const.isSome ty name.text
  | some .initialized => initializedDeclaration first.pos const.isSome ty name.text
  | some .bare => bareDeclaration first.pos const.isSome ty name.text
  | some .function => functionLevel inner first.pos ty name.text
  | none => refuse t declaratorEnds

/-- A declaration if it looks like one, else a statement. -/
def itemLevel : Parser Stmt := do
  if ← next Token.startsDeclaration then declarationLevel inner else inner

/-- A block, from its brace on. -/
def blockLevel (pos : Position) : Parser Stmt := do
  let _ ← mark .openBrace
  let items ← itemsUntil (isMark .closeBrace) (itemLevel inner)
  let _ ← mark .closeBrace
  pure (.block pos items)

/-- An expression in parentheses. -/
def condition : Parser Expr := do
  let _ ← mark .openParen
  let cond ← expr
  let _ ← mark .closeParen
  pure cond

/-- A conditional, from its keyword on; an `else` belongs to the nearest `if`. -/
def ifLevel (pos : Position) : Parser Stmt := do
  let _ ← keyword .ifWord
  let cond ← condition
  let yes ← inner
  match ← accept (isKeyword .elseWord) with
  | none => pure (.ifThen pos cond yes)
  | some _ =>
    let no ← inner
    pure (.ifElse pos cond yes no)

/-- A loop with a condition in front, from its keyword on. -/
def whileLevel (pos : Position) : Parser Stmt := do
  let _ ← keyword .whileWord
  let cond ← condition
  let body ← inner
  pure (.whileLoop pos cond body)

/-- A loop with start, condition and step, from its keyword on. -/
def forLevel (pos : Position) : Parser Stmt := do
  let _ ← keyword .forWord
  let _ ← mark .openParen
  let init ← exprUnless .semicolon
  let _ ← mark .semicolon
  let cond ← exprUnless .semicolon
  let _ ← mark .semicolon
  let step ← exprUnless .closeParen
  let _ ← mark .closeParen
  let body ← inner
  pure (.forLoop pos init cond step body)

/-- A return, from its keyword on. -/
def returnStmt (pos : Position) : Parser Stmt := do
  let _ ← keyword .returnWord
  let value ← exprUnless .semicolon
  let _ ← mark .semicolon
  pure (.ret pos value)

/-- An expression used as a statement. -/
def exprStmt (pos : Position) : Parser Stmt := do
  let value ← expr
  let _ ← mark .semicolon
  pure (.expr pos value)

/-- A statement that is no declaration. -/
def stmtLevel : Parser Stmt := do
  let t ← peek "statement"
  match stmtForm t with
  | .block => blockLevel inner t.pos
  | .conditional => ifLevel inner t.pos
  | .whileLoop => whileLevel inner t.pos
  | .forLoop => forLevel inner t.pos
  | .ret => returnStmt t.pos
  | .expr => exprStmt t.pos

end Nested

/-- Statements that nest less deep than the list in front is long. -/
def stmtWithin : List Token → Parser Stmt
  | [] => fun ts => .error (.endOfInput "statement") ts
  | _ :: bound => stmtLevel (stmtWithin bound)

/-- A statement that is no declaration. -/
def stmt : Parser Stmt := fun ts => stmtWithin ts ts

/-- A declaration of a variable or a function. -/
def declaration : Parser Stmt := declarationLevel stmt

/-- A declaration or a statement. -/
def item : Parser Stmt := itemLevel stmt

/-- A sequence of items up to the end of the tokens. -/
def program : Parser Program := itemsUntil (fun _ => false) item

end WordC.Parser

namespace WordC

/-- Read what is left of a token list; `stop` is where its end is reported. -/
def Program.ofRest (stop : Position) (rest : List Token) : Except Diagnostic Program :=
  match Parser.program rest with
  | .ok program _ => .ok program
  | .error failure _ => .error (failure.diagnostic stop)

/-- Read a token list as a program. -/
def Program.ofTokens (tokens : List Token) : Except Diagnostic Program :=
  Program.ofRest (endPosition tokens) tokens

end WordC
