import WordC.Diagnostic
import WordC.Token.Basic

/-!
# Parsers of token lists

A parser reads a value off the front of a token list. Its `Reply` has the tokens that are left,
also when it fails. A `Failure` at the end of the tokens does not say where: the end is known only
to whoever holds the whole list (`Failure.diagnostic`).

* `token`, `expect`, `accept`: one token
* `many`: a phrase for every selected token in front of it, such as the operators of a chain
* `itemsUntil`: one phrase after the other
* `commaList`: phrases with commas between them

A loop takes at most one round per token, and each round takes a token: the tokens a loop begins
with are also the list that its recursion follows.
-/

namespace WordC

/-- Why a parser fails. -/
inductive Failure
  /-- A fault at a token. -/
  | fault (d : Diagnostic)
  /-- There is no token where one was expected. -/
  | endOfInput (expected : String)
deriving DecidableEq, Repr

/-- The end of the input is reported at the last token, or at the start of a nameless file. -/
def endPosition (tokens : List Token) : Position :=
  (tokens.getLast?.map Token.pos).getD (.start "")

/-- The diagnostic for a failure; `stop` is where the end of the input is reported. -/
def Failure.diagnostic (stop : Position) : Failure → Diagnostic
  | .fault d => d
  | .endOfInput expected => ⟨stop, .endOfInput expected⟩

/-- The outcome of a parser and the tokens it left. -/
inductive Reply (α : Type)
  | ok (value : α) (rest : List Token)
  | error (failure : Failure) (rest : List Token)
deriving Repr

/-- The tokens that are left, in either outcome. -/
def Reply.rest {α : Type} : Reply α → List Token
  | .ok _ rest => rest
  | .error _ rest => rest

/-- A reader of a value off the front of a token list. -/
def Parser (α : Type) : Type := List Token → Reply α

namespace Parser

variable {α β ω : Type}

protected def pure (a : α) : Parser α := fun ts => .ok a ts

protected def bind (p : Parser α) (f : α → Parser β) : Parser β := fun ts =>
  match p ts with
  | .ok a rest => f a rest
  | .error failure rest => .error failure rest

instance : Monad Parser where
  pure := Parser.pure
  bind := Parser.bind

theorem pure_apply (a : α) (ts : List Token) : (pure a : Parser α) ts = .ok a ts := rfl

theorem bind_apply (p : Parser α) (f : α → Parser β) (ts : List Token) :
    (p >>= f) ts = match p ts with
      | .ok a rest => f a rest
      | .error failure rest => .error failure rest := rfl

/-- A sequence succeeds exactly when both parts do, one on what the other left. -/
theorem bind_eq_ok_iff {p : Parser α} {f : α → Parser β} {ts rest : List Token} {b : β} :
    (p >>= f) ts = .ok b rest ↔ ∃ a mid, p ts = .ok a mid ∧ f a mid = .ok b rest := by
  rw [bind_apply]
  cases h : p ts with
  | error failure mid => simp
  | ok a mid =>
    simp only [Reply.ok.injEq]
    constructor
    · exact fun hf => ⟨a, mid, ⟨rfl, rfl⟩, hf⟩
    · rintro ⟨_, _, ⟨rfl, rfl⟩, hf⟩
      exact hf

instance : LawfulMonad Parser :=
  LawfulMonad.mk' Parser
    (by
      intro α p
      funext ts
      change (match p ts with
        | .ok a rest => Reply.ok a rest
        | .error failure rest => .error failure rest) = p ts
      cases p ts <;> rfl)
    (fun _ _ => rfl)
    (by
      intro α β γ p f g
      funext ts
      simp only [bind_apply]
      cases p ts <;> rfl)

/-! ### One token -/

/-- Fail at a token that is not the expected one. -/
def refuse (t : Token) (expected : String) : Parser α := fun ts =>
  .error (.fault ⟨t.pos, .unexpected t.text expected⟩) ts

/-- Fail with a cause at a position. -/
def fault (pos : Position) (cause : Cause) : Parser α := fun ts =>
  .error (.fault ⟨pos, cause⟩) ts

/-- The next token, which stays where it is. -/
def peek (expected : String) : Parser Token
  | [] => .error (.endOfInput expected) []
  | t :: rest => .ok t (t :: rest)

/-- The next token. -/
def token (expected : String) : Parser Token
  | [] => .error (.endOfInput expected) []
  | t :: rest => .ok t rest

/-- The next token, which has to be one of those wanted. -/
def expect (wanted : Token → Bool) (expected : String) : Parser Token
  | [] => .error (.endOfInput expected) []
  | t :: rest => if wanted t then .ok t rest else refuse t expected (t :: rest)

/-- The next token if it is one of those wanted, else nothing. -/
def accept (wanted : Token → Bool) : Parser (Option Token)
  | [] => .ok none []
  | t :: rest => if wanted t then .ok (some t) rest else .ok none (t :: rest)

/-- Is the next token one of those wanted? -/
def next (wanted : Token → Bool) : Parser Bool := fun ts => .ok (ts.head?.any wanted) ts

/-- Is the token this mark? -/
def isMark (m : Mark) (t : Token) : Bool := t.kind = .mark m

/-- Is the token this keyword? -/
def isKeyword (k : Keyword) (t : Token) : Bool := t.kind = .keyword k

/-- Is the token an identifier? -/
def isIdentifier (t : Token) : Bool := t.kind = .identifier

/-- Is the token a number? -/
def isNumber (t : Token) : Bool :=
  match t.kind with
  | .number _ => true
  | _ => false

/-- A mark that has to come next. -/
def mark (m : Mark) : Parser Token := expect (isMark m) m.name

/-- A keyword that has to come next. -/
def keyword (k : Keyword) : Parser Token := expect (isKeyword k) k.name

/-- An identifier that has to come next. -/
def identifier : Parser Token := expect isIdentifier "identifier"

/-! ### Repetition -/

/-- `many` in at most as many rounds as the list in front is long. -/
def manyWithin (select : Token → Option ω) (phrase : ω → Parser α) :
    List Token → Parser (List α)
  | [] => fun ts => .ok [] ts
  | _ :: bound => fun ts =>
    match ts with
    | [] => .ok [] []
    | t :: rest =>
      match select t with
      | none => .ok [] (t :: rest)
      | some w => (do
          let a ← phrase w
          let as ← manyWithin select phrase bound
          pure (a :: as)) rest

/-- As long as the next token is selected, take it and read a phrase that depends on it. -/
def many (select : Token → Option ω) (phrase : ω → Parser α) : Parser (List α) := fun ts =>
  manyWithin select phrase ts ts

/-- `itemsUntil` in at most as many rounds as the list in front is long. -/
def itemsWithin (stop : Token → Bool) (item : Parser α) : List Token → Parser (List α)
  | [] => fun ts => .ok [] ts
  | _ :: bound => fun ts =>
    match ts with
    | [] => .ok [] []
    | t :: rest =>
      if stop t then .ok [] (t :: rest)
      else (do
        let a ← item
        let as ← itemsWithin stop item bound
        pure (a :: as)) (t :: rest)

/-- Read items up to a stopping token, which stays, or to the end. -/
def itemsUntil (stop : Token → Bool) (item : Parser α) : Parser (List α) := fun ts =>
  itemsWithin stop item ts ts

/-- Select a mark. -/
def onMark (m : Mark) (t : Token) : Option Unit := if isMark m t then some () else none

/-- Items with commas between them, up to a closing parenthesis, which stays. -/
def commaList (item : Parser α) : Parser (List α) := do
  if ← next (isMark .closeParen) then
    pure []
  else
    let first ← item
    let others ← many (onMark .comma) fun _ => item
    pure (first :: others)

end Parser

end WordC
