import WordC.Proofs.Parser.Basic

/-!
# Scripts of parsers

A parser is a function: it says what is read, and not how. A `Script` says how, as moves of a cursor
in a token list: look at the next two tokens, take the next one if it is wanted, call a routine. A
loop is a routine that calls itself behind each round, and nothing in a script bounds a loop or the
nesting of calls.

* `Script.parser`: what a script reads, if the routines it calls read what their parsers do;
* `Script.Guarded`: until a script has taken a token it calls only routines of lower ranks;
* `Script.Spells`: a guarded script reads what a parser reads. There is one rule for each way to put
  a parser together, so that the proof for a parser follows its text.
-/

namespace WordC

variable {R : Type} {Value : R → Type} {α β ω : Type}

/-- The reply with an outcome, in front of the tokens that are left. -/
def Reply.ofOutcome (rest : List Token) : Except Failure α → Reply α
  | .ok a => .ok a rest
  | .error failure => .error failure rest

/-- What a parser does, move by move; a routine `r` returns a `Value r`. -/
inductive Script (Value : R → Type) (α : Type) : Type
  | done (a : α)
  | fail (failure : Failure)
  /-- Look at the next token and at the one behind it. -/
  | look (go : Option Token → Option Token → Script Value α)
  /-- Take the next token if it is wanted. -/
  | take (wanted : Token → Bool) (go : Option Token → Script Value α)
  | call (r : R) (go : Value r → Script Value α)

namespace Script

protected def bind : Script Value α → (α → Script Value β) → Script Value β
  | done a, f => f a
  | fail failure, _ => fail failure
  | look go, f => look fun first second => (go first second).bind f
  | take wanted go, f => take wanted fun t => (go t).bind f
  | call r go, f => call r fun v => (go v).bind f

instance : Monad (Script Value) where
  pure := done
  bind := Script.bind

/-! ### One token -/

def fault (pos : Position) (cause : Cause) : Script Value α := fail (.fault ⟨pos, cause⟩)

def refuse (t : Token) (expected : String) : Script Value α :=
  fault t.pos (.unexpected t.text expected)

def peek (expected : String) : Script Value Token :=
  look fun first _ => first.elim (fail (.endOfInput expected)) done

def next (wanted : Token → Bool) : Script Value Bool := look fun first _ => done (first.any wanted)

def accept (wanted : Token → Bool) : Script Value (Option Token) := take wanted done

def expect (wanted : Token → Bool) (expected : String) : Script Value Token :=
  take wanted fun taken => taken.elim (peek expected >>= fun t => refuse t expected) done

def mark (m : Mark) : Script Value Token := expect (Parser.isMark m) m.name

def keyword (k : Keyword) : Script Value Token := expect (Parser.isKeyword k) k.name

def identifier : Script Value Token := expect Parser.isIdentifier "identifier"

/-- The value of a routine. -/
def routine (r : R) : Script Value (Value r) := call r done

/-! ### Rounds of loops -/

/-- If the next token is selected, take it and read a phrase that depends on it, and go on. -/
def round (select : Token → Option ω) (phrase : ω → Script Value α)
    (again : Script Value (List α)) : Script Value (List α) :=
  take (fun t => (select t).isSome) fun taken =>
    (taken.bind select).elim (done []) fun w => do
      let a ← phrase w
      let as ← again
      pure (a :: as)

/-- Read an item and go on, except in front of a stopping token or at the end. -/
def itemRound (stop : Token → Bool) (item : Script Value α) (again : Script Value (List α)) :
    Script Value (List α) :=
  look fun first _ =>
    if first.all stop then done []
    else do
      let a ← item
      let as ← again
      pure (a :: as)

/-- Items with commas between them; `more` reads those behind the first. -/
def commaList (item : Script Value α) (more : Script Value (List α)) : Script Value (List α) := do
  if ← next (Parser.isMark .closeParen) then
    pure []
  else
    let first ← item
    let others ← more
    pure (first :: others)

/-! ### What a script reads -/

/-- The parser of a script, with the parsers of the routines it calls. -/
def parser (answer : (r : R) → Parser (Value r)) : Script Value α → Parser α
  | done a => pure a
  | fail failure => fun ts => .error failure ts
  | look go => fun ts => (go ts.head? ts[1]?).parser answer ts
  | take wanted go => do
    let taken ← Parser.accept wanted
    (go taken).parser answer
  | call r go => do
    let v ← answer r
    (go v).parser answer

section Parser

variable {answer : (r : R) → Parser (Value r)}

theorem parser_bind (s : Script Value α) (f : α → Script Value β) :
    (s >>= f).parser answer = s.parser answer >>= fun a => (f a).parser answer := by
  induction s with
  | done a => rfl
  | fail failure => rfl
  | look go ih =>
    funext ts
    exact congrFun (ih ts.head? ts[1]?) ts
  | take wanted go ih =>
    change (Parser.accept wanted >>= fun t => (go t >>= f).parser answer) = _
    simp only [ih, parser, bind_assoc]
  | call r go ih =>
    change (answer r >>= fun v => (go v >>= f).parser answer) = _
    simp only [ih, parser, bind_assoc]

theorem parser_look (go : Option Token → Option Token → Script Value α) (ts : List Token) :
    (look go).parser answer ts = (go ts.head? ts[1]?).parser answer ts := rfl

theorem parser_peek (expected : String) :
    (peek expected : Script Value Token).parser answer = Parser.peek expected := by
  funext ts
  cases ts <;> rfl

theorem parser_expect (wanted : Token → Bool) (expected : String) :
    (expect wanted expected : Script Value Token).parser answer =
      Parser.expect wanted expected := by
  funext ts
  cases ts with
  | nil => rfl
  | cons t rest =>
    rw [expect, parser, Parser.bind_apply, Parser.accept, Parser.expect]
    by_cases ht : wanted t = true
    · simp only [ht, if_true]
      rfl
    · simp only [ht]
      rfl

theorem parser_round (select : Token → Option ω) {phrase : ω → Script Value α}
    {again : Script Value (List α)} {read : ω → Parser α} (hc : ∀ w, Parser.Consumes (read w))
    (hphrase : ∀ w, (phrase w).parser answer = read w)
    (hagain : again.parser answer = Parser.many select read) :
    (round select phrase again).parser answer = Parser.many select read := by
  -- One round is one step of the loop, and what the next call answers is the rest of it.
  funext ts
  cases ts with
  | nil => rfl
  | cons t rest =>
    rw [round, parser, Parser.bind_apply, Parser.accept]
    cases hselect : select t with
    | none =>
      rw [Parser.many_of_none (by rintro _ ⟨⟩; exact hselect)]
      rfl
    | some w =>
      simp only [Option.isSome_some, if_true, Option.bind_some, hselect, Option.elim_some,
        Parser.many_cons hc hselect, parser_bind, hphrase, hagain]
      rfl

theorem parser_itemRound (stop : Token → Bool) {item : Script Value α}
    {again : Script Value (List α)} {read : Parser α} (ha : Parser.Advances read)
    (hitem : item.parser answer = read)
    (hagain : again.parser answer = Parser.itemsUntil stop read) :
    (itemRound stop item again).parser answer = Parser.itemsUntil stop read := by
  funext ts
  cases ts with
  | nil => rfl
  | cons t rest =>
    rw [itemRound, parser]
    cases hstop : stop t with
    | true =>
      rw [Parser.itemsUntil_of_stop hstop]
      simp only [List.head?_cons, Option.all_some, hstop, if_true]
      rfl
    | false =>
      simp only [List.head?_cons, Option.all_some, hstop, Bool.false_eq_true, if_false,
        Parser.itemsUntil_cons ha hstop, parser_bind, hitem, hagain]
      rfl

end Parser

end Script

/-! ### Ranks -/

/-- Routines with their parsers. A routine has a rank, and `takes` says of some that they take a
token wherever they succeed. -/
structure Routines (Value : R → Type) where
  parser : (r : R) → Parser (Value r)
  levels : Nat
  rank : R → Nat
  rank_lt : ∀ r, rank r < levels
  takes : R → Bool

namespace Script

variable {d : Routines Value} {bound : Nat} {moved mid after : Bool}

/-- The moves of a routine whose rank is the bound. Until a token has been taken, which `moved`
tells, it calls only routines of lower ranks; if `after` is true, it has taken one where it ends
with a value. -/
def Guarded (d : Routines Value) (bound : Nat) (after : Bool) : Bool → Script Value α → Prop
  | moved, done _ => after = true → moved = true
  | _, fail _ => True
  | moved, look go => ∀ first second, (go first second).Guarded d bound after moved
  | moved, take _ go =>
    (∀ t, (go (some t)).Guarded d bound after true) ∧ (go none).Guarded d bound after moved
  | moved, call r go =>
    (moved = true ∨ d.rank r < bound) ∧ ∀ v, (go v).Guarded d bound after (moved || d.takes r)

/-- A script that may not have taken a token yet can as well have taken one. -/
theorem Guarded.mono {s : Script Value α} (h : s.Guarded d bound after moved) {moved' : Bool}
    (hmoved : moved = true → moved' = true) : s.Guarded d bound after moved' := by
  induction s generalizing moved moved' with
  | done a => exact fun hafter => hmoved (h hafter)
  | fail failure => trivial
  | look go ih => exact fun first second => ih first second (h first second) hmoved
  | take wanted go ih => exact ⟨h.1, ih none h.2 hmoved⟩
  | call r go ih =>
    refine ⟨h.1.imp_left hmoved, fun v => ih v (h.2 v) fun hor => ?_⟩
    rw [Bool.or_eq_true] at hor ⊢
    exact hor.imp_left hmoved

theorem Guarded.bind {s : Script Value α} {f : α → Script Value β} (h : s.Guarded d bound mid moved)
    (hf : ∀ a, (f a).Guarded d bound after mid) : (s >>= f).Guarded d bound after moved := by
  induction s generalizing moved with
  | done a => exact (hf a).mono h
  | fail failure => trivial
  | look go ih => exact fun first second => ih first second (h first second)
  | take wanted go ih => exact ⟨fun t => ih (some t) (h.1 t), ih none h.2⟩
  | call r go ih => exact ⟨h.1, fun v => ih v (h.2 v)⟩

/-- The script reads what the parser reads, with the moves of a routine of the given rank. -/
structure Spells (d : Routines Value) (bound : Nat) (moved : Bool) (s : Script Value α)
    (p : Parser α) (after : Bool) : Prop where
  parser_eq : s.parser d.parser = p
  guarded : s.Guarded d bound after moved

namespace Spells

variable {s s' : Script Value α} {p p' : Parser α}

theorem pure (a : α) : Spells d bound moved (Pure.pure a) (Pure.pure a) moved := ⟨rfl, id⟩

/-- Behind a token a value can be returned from every routine. -/
theorem pureBehind (a : α) : Spells d bound true (Pure.pure a) (Pure.pure a) after :=
  ⟨rfl, fun _ => rfl⟩

theorem fault (pos : Position) (cause : Cause) :
    Spells d bound moved (Script.fault pos cause : Script Value α) (Parser.fault pos cause) after :=
  ⟨rfl, trivial⟩

theorem refuse (t : Token) (expected : String) :
    Spells d bound moved (Script.refuse t expected : Script Value α) (Parser.refuse t expected)
      after :=
  ⟨rfl, trivial⟩

theorem peek (expected : String) :
    Spells d bound moved (Script.peek expected) (Parser.peek expected) moved := by
  refine ⟨parser_peek expected, fun first second => ?_⟩
  cases first with
  | none => trivial
  | some t => exact id

theorem next (wanted : Token → Bool) :
    Spells d bound moved (Script.next wanted) (Parser.next wanted) moved :=
  ⟨rfl, fun _ _ => id⟩

theorem accept (wanted : Token → Bool) :
    Spells d bound moved (Script.accept wanted) (Parser.accept wanted) moved :=
  ⟨bind_pure _, fun _ _ => rfl, id⟩

theorem expect (wanted : Token → Bool) (expected : String) :
    Spells d bound moved (Script.expect wanted expected) (Parser.expect wanted expected) true := by
  refine ⟨parser_expect wanted expected, fun _ _ => rfl, fun first second => ?_⟩
  cases first <;> trivial

theorem mark (m : Mark) : Spells d bound moved (Script.mark m) (Parser.mark m) true := expect _ _

theorem keyword (k : Keyword) : Spells d bound moved (Script.keyword k) (Parser.keyword k) true :=
  expect _ _

theorem identifier : Spells d bound moved Script.identifier Parser.identifier true := expect _ _

/-- A call, which is behind a token or of a lower rank. -/
theorem routine (r : R) (h : moved = true ∨ d.rank r < bound) :
    Spells d bound moved (Script.routine r) (d.parser r) (moved || d.takes r) :=
  ⟨bind_pure _, h, fun _ => id⟩

theorem bind {f : α → Script Value β} {g : α → Parser β} (h : Spells d bound moved s p mid)
    (hf : ∀ a, Spells d bound mid (f a) (g a) after) :
    Spells d bound moved (s >>= f) (p >>= g) after := by
  refine ⟨?_, h.guarded.bind fun a => (hf a).guarded⟩
  rw [parser_bind, h.parser_eq]
  exact congrArg (p >>= ·) (funext fun a => (hf a).parser_eq)

theorem ite {c : Prop} [Decidable c] (h : Spells d bound moved s p after)
    (h' : Spells d bound moved s' p' after) :
    Spells d bound moved (if c then s else s') (if c then p else p') after := by
  split
  · exact h
  · exact h'

/-- A value in front of those that are read behind it. -/
theorem cons {more : Script Value (List α)} {q : Parser (List α)}
    (h : Spells d bound moved s p true) (hmore : Spells d bound true more q true) :
    Spells d bound moved
      (do
        let a ← s
        let as ← more
        Pure.pure (a :: as))
      (do
        let a ← p
        let as ← q
        Pure.pure (a :: as)) after :=
  h.bind fun _ => hmore.bind fun _ => .pureBehind _

/-- A loop takes a token before its phrase, and the rest of it is behind that. -/
theorem round (select : Token → Option ω) {phrase : ω → Script Value α}
    {again : Script Value (List α)} {read : ω → Parser α} (hc : ∀ w, Parser.Consumes (read w))
    (hphrase : ∀ w, Spells d bound true (phrase w) (read w) true)
    (hagain : Spells d bound true again (Parser.many select read) true) :
    Spells d bound moved (Script.round select phrase again) (Parser.many select read) moved := by
  refine ⟨parser_round select hc (fun w => (hphrase w).parser_eq) hagain.parser_eq, fun t => ?_, id⟩
  cases hselect : select t with
  | none => simp only [Option.bind_some, hselect, Option.elim_none, Guarded, implies_true]
  | some w =>
    simp only [Option.bind_some, hselect, Option.elim_some]
    exact ((hphrase w).cons hagain).guarded

/-- Here it is the items that take the tokens. -/
theorem itemRound (stop : Token → Bool) {item : Script Value α} {again : Script Value (List α)}
    (ha : Parser.Advances p) (hitem : Spells d bound moved item p true)
    (hagain : Spells d bound true again (Parser.itemsUntil stop p) true) :
    Spells d bound moved (Script.itemRound stop item again) (Parser.itemsUntil stop p) moved := by
  refine ⟨parser_itemRound stop ha hitem.parser_eq hagain.parser_eq, fun first second => ?_⟩
  cases hstop : first.all stop with
  | true =>
    simp only [hstop, if_true]
    exact id
  | false =>
    simp only [hstop]
    exact (hitem.cons hagain).guarded

theorem commaList {item : Script Value α} {more : Script Value (List α)}
    (hitem : Spells d bound moved item p true)
    (hmore : Spells d bound true more (Parser.many (Parser.onMark .comma) fun _ => p) true) :
    Spells d bound moved (Script.commaList item more) (Parser.commaList p) moved :=
  .bind (.next _) fun _ => .ite (.pure []) (hitem.cons hmore)

end Spells

end Script

end WordC
