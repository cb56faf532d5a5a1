import WordC.Proofs.Parser.Levels

/-!
# More tokens behind those that are read

A reply is settled if tokens behind those that were given do not change it (`Reply.IsSettled`). A
fault is settled, since it is at a token, and the end of the input is not. A value is settled if
there are tokens left, for then it was the next one that ended it. If none are left, it depends on
what follows.

`Steady more closed p` says that settled replies of `p` stay the same with `more` behind the tokens;
`closed` is the condition on `more` under which that holds also for values that leave no token. The
condition is `True` for phrases with a fixed end, and `False` for phrases that may go on, such as
expressions. In a sequence it is that of the last part, as long as the parts behind an open one
either need a token (`Hungry`) or take none and succeed.
-/

namespace WordC

variable {α β γ ω : Type}

namespace Reply

/-- The reply with more tokens behind those that are left. -/
def before (more : List Token) : Reply α → Reply α
  | .ok a rest => .ok a (rest ++ more)
  | .error failure rest => .error failure (rest ++ more)

/-- Does the reply stay the same, whatever follows? A value that leaves no token does so only if
`closed` says that what follows does not go on with it. -/
def IsSettled (closed : Prop) : Reply α → Prop
  | .ok _ rest => rest = [] → closed
  | .error (.fault _) _ => True
  | .error (.endOfInput _) _ => False

theorem IsSettled.mono {closed closed' : Prop} (h : closed → closed') {reply : Reply α}
    (hs : reply.IsSettled closed) : reply.IsSettled closed' := by
  cases reply with
  | ok a rest => exact fun hrest => h (hs hrest)
  | error failure rest => cases failure <;> exact hs

end Reply

namespace Parser

/-- Settled replies of the parser stay the same with `more` behind the tokens. -/
def Steady (more : List Token) (closed : Prop) (p : Parser α) : Prop :=
  ∀ ts, (p ts).IsSettled closed → p (ts ++ more) = (p ts).before more

/-- The parser needs a token. -/
def Hungry (p : Parser α) : Prop := ∃ expected, p [] = .error (.endOfInput expected) []

namespace Hungry

variable {p : Parser α}

theorem peek (expected : String) : Hungry (Parser.peek expected) := ⟨expected, rfl⟩

theorem token (expected : String) : Hungry (Parser.token expected) := ⟨expected, rfl⟩

theorem expect (wanted : Token → Bool) (expected : String) :
    Hungry (Parser.expect wanted expected) := ⟨expected, rfl⟩

theorem mark (m : Mark) : Hungry (Parser.mark m) := .expect _ _

theorem bind (h : Hungry p) (f : α → Parser β) : Hungry (p >>= f) := by
  obtain ⟨expected, hnil⟩ := h
  exact ⟨expected, by rw [bind_apply, hnil]⟩

theorem not_isSettled (h : Hungry p) (closed : Prop) : ¬(p []).IsSettled closed := by
  obtain ⟨expected, hnil⟩ := h
  rw [hnil]
  exact id

end Hungry

namespace Steady

variable {more : List Token} {closed closed' : Prop} {p : Parser α} {wanted : Token → Bool}

theorem mono (h : Steady more closed p) (hclosed : closed' → closed) : Steady more closed' p :=
  fun ts hs => h ts (hs.mono hclosed)

/-- If the first part leaves no token and the whole is settled, the first part has to be closed. -/
theorem bind {f : α → Parser β} (hp : Steady more closed p) (hf : ∀ a, Steady more closed' (f a))
    (hend : ∀ {ts : List Token} {a : α}, p ts = .ok a [] → (f a []).IsSettled closed' → closed) :
    Steady more closed' (p >>= f) := by
  intro ts hs
  rw [bind_apply] at hs ⊢
  rw [bind_apply]
  cases hrun : p ts with
  | error failure rest =>
    rw [hrun] at hs
    have hkept := hp ts (by rw [hrun]; cases failure <;> exact hs)
    rw [hrun] at hkept
    rw [hkept]
    rfl
  | ok a mid =>
    simp only [hrun] at hs
    have hkept := hp ts (by rw [hrun]; rintro rfl; exact hend hrun hs)
    rw [hrun] at hkept
    rw [hkept]
    exact hf a mid hs

/-- A first part with a fixed end. -/
theorem andThen {f : α → Parser β} (hp : Steady more True p)
    (hf : ∀ a, Steady more closed (f a)) : Steady more closed (p >>= f) :=
  hp.bind hf fun _ _ => trivial

/-- A first part that may go on, and a second one that needs a token. -/
theorem bindHungry {f : α → Parser β} (hp : Steady more closed p)
    (hf : ∀ a, Steady more closed' (f a)) (hneeds : ∀ a, Hungry (f a)) :
    Steady more closed' (p >>= f) :=
  hp.bind hf fun {_ a} _ hs => absurd hs ((hneeds a).not_isSettled closed')

/-- Two parts that may go on in the same way, the second of which can be empty. -/
theorem bindEmpty {f : α → Parser β} (hp : Steady more closed p)
    (hf : ∀ a, Steady more closed (f a)) (hempty : ∀ a, ∃ b, f a [] = .ok b []) :
    Steady more closed (p >>= f) := by
  refine hp.bind hf fun {_ a} _ hs => ?_
  obtain ⟨b, hnil⟩ := hempty a
  rw [hnil] at hs
  exact hs rfl

theorem ite {c : Prop} [Decidable c] {q : Parser α} (hp : Steady more closed p)
    (hq : Steady more closed q) : Steady more closed (if c then p else q) := by
  split
  · exact hp
  · exact hq

/-! ### One token -/

theorem pure (a : α) : Steady more closed (Pure.pure a : Parser α) := fun _ _ => rfl

/-- A value made of the value of a part. -/
theorem map (hp : Steady more closed p) (g : α → β) :
    Steady more closed (do
      let a ← p
      Pure.pure (g a)) :=
  hp.bindEmpty (fun _ => .pure _) fun _ => ⟨_, rfl⟩

theorem fault (pos : Position) (cause : Cause) :
    Steady more closed (Parser.fault pos cause : Parser α) := fun _ _ => rfl

theorem refuse (t : Token) (expected : String) :
    Steady more closed (Parser.refuse t expected : Parser α) := fun _ _ => rfl

theorem peek (expected : String) : Steady more closed (Parser.peek expected) := by
  intro ts hs
  cases ts with
  | nil => exact hs.elim
  | cons t rest => rfl

theorem token (expected : String) : Steady more closed (Parser.token expected) := by
  intro ts hs
  cases ts with
  | nil => exact hs.elim
  | cons t rest => rfl

theorem expect (wanted : Token → Bool) (expected : String) :
    Steady more closed (Parser.expect wanted expected) := by
  intro ts hs
  cases ts with
  | nil => exact hs.elim
  | cons t rest =>
    by_cases ht : wanted t = true
    · simp [Parser.expect, ht, Reply.before]
    · simp [Parser.expect, ht, Reply.before, Parser.refuse]

theorem mark (m : Mark) : Steady more closed (Parser.mark m) := .expect _ _

theorem keyword (k : Keyword) : Steady more closed (Parser.keyword k) := .expect _ _

theorem identifier : Steady more closed Parser.identifier := .expect _ _

/-- Where a token is taken if it is wanted, a settled reply without one is not to be followed by
one. -/
theorem accept {f : Option Token → Parser β} (hf : ∀ taken, Steady more closed (f taken))
    (hend : (f none []).IsSettled closed → more.head?.any wanted = false) :
    Steady more closed (Parser.accept wanted >>= f) := by
  intro ts hs
  cases ts with
  | nil =>
    have hnone : Parser.accept wanted more = .ok none more :=
      accept_eq_ok_none_iff.2 ⟨rfl, hend hs⟩
    rw [List.nil_append, bind_of_ok hnone]
    exact hf none [] hs
  | cons t rest =>
    by_cases ht : wanted t = true
    · have hsome (us : List Token) : Parser.accept wanted (t :: us) = .ok (some t) us :=
        accept_eq_ok_some_iff.2 ⟨rfl, ht⟩
      rw [bind_of_ok (hsome rest)] at hs ⊢
      rw [List.cons_append, bind_of_ok (hsome (rest ++ more))]
      exact hf (some t) rest hs
    · have hnone (us : List Token) : Parser.accept wanted (t :: us) = .ok none (t :: us) :=
        accept_eq_ok_none_iff.2 ⟨rfl, by simpa using ht⟩
      rw [bind_of_ok (hnone rest)] at hs ⊢
      rw [List.cons_append, bind_of_ok (hnone (rest ++ more))]
      exact hf none (t :: rest) hs

/-- The same where the next token is only looked at. -/
theorem next {f : Bool → Parser β} (hf : ∀ found, Steady more closed (f found))
    (hend : (f false []).IsSettled closed → more.head?.any wanted = false) :
    Steady more closed (Parser.next wanted >>= f) := by
  intro ts hs
  cases ts with
  | nil =>
    have hnext : Parser.next wanted more = .ok false more := next_eq_ok_iff.2 ⟨hend hs, rfl⟩
    rw [List.nil_append, bind_of_ok hnext]
    exact hf false [] hs
  | cons t rest => exact hf (wanted t) (t :: rest) hs

/-- If what comes without the token needs one itself, it does not matter what follows. -/
theorem acceptHungry {f : Option Token → Parser β} (hf : ∀ taken, Steady more closed (f taken))
    (hneeds : Hungry (f none)) : Steady more closed (Parser.accept wanted >>= f) :=
  accept hf fun hs => absurd hs (hneeds.not_isSettled closed)

theorem nextHungry {f : Bool → Parser β} (hf : ∀ found, Steady more closed (f found))
    (hneeds : Hungry (f false)) : Steady more closed (Parser.next wanted >>= f) :=
  next hf fun hs => absurd hs (hneeds.not_isSettled closed)

/-- A phrase that may go on is settled by a mark behind it. -/
theorem thenMark {f : α → Parser β} (hp : Steady more False p) (m : Mark)
    (hf : ∀ a, Steady more closed (f a)) :
    Steady more closed (do
      let a ← p
      let _ ← Parser.mark m
      f a) :=
  hp.bindHungry (fun a => .andThen (.mark m) fun _ => hf a) fun _ => (Hungry.mark m).bind _

/-! ### Repetition -/

/-- A value and what is joined to it, of which there may be nothing. -/
theorem join {q : Parser β} (hp : Steady more False p) (hq : Steady more False q) {b : β}
    (hnil : q [] = .ok b []) (g : α → β → γ) :
    Steady more False (do
      let a ← p
      let b ← q
      Pure.pure (g a b)) :=
  hp.bindEmpty (fun a => hq.map (g a)) fun a => ⟨g a b, by rw [bind_of_ok hnil]; rfl⟩

theorem manyWithin (select : Token → Option ω) {phrase : ω → Parser α}
    (h : ∀ w, Steady more False (phrase w)) :
    ∀ bound, Steady more False (Parser.manyWithin select phrase bound)
  | [] => .pure []
  | _ :: bound => by
    intro ts hs
    cases ts with
    | nil => exact (hs rfl).elim
    | cons t rest =>
      have hnil : Parser.manyWithin select phrase bound [] = .ok [] [] := by cases bound <;> rfl
      rw [Parser.manyWithin] at hs ⊢
      rw [List.cons_append]
      cases hselect : select t with
      | none =>
        simp only [hselect]
        rfl
      | some w =>
        simp only [hselect] at hs ⊢
        exact join (h w) (manyWithin select h bound) hnil List.cons rest hs

/-- The bound of a loop can be taken from the longer list. -/
theorem many (select : Token → Option ω) {phrase : ω → Parser α} (hc : ∀ w, Consumes (phrase w))
    (h : ∀ w, Steady more False (phrase w)) : Steady more False (Parser.many select phrase) := by
  intro ts hs
  have hbound : Parser.many select phrase ts = Parser.manyWithin select phrase (ts ++ more) ts :=
    AgreeBelow.manyWithin select hc (fun w => .refl (phrase w)) ts (ts ++ more) ts
      (Nat.le_refl _) (by simp) (Nat.le_refl _)
  rw [hbound] at hs ⊢
  exact manyWithin select h (ts ++ more) ts hs

theorem itemsWithin (stop : Token → Bool) {item : Parser α} (h : Steady more False item) :
    ∀ bound, Steady more False (Parser.itemsWithin stop item bound)
  | [] => .pure []
  | _ :: bound => by
    intro ts hs
    cases ts with
    | nil => exact (hs rfl).elim
    | cons t rest =>
      have hnil : Parser.itemsWithin stop item bound [] = .ok [] [] := by cases bound <;> rfl
      rw [Parser.itemsWithin] at hs ⊢
      rw [List.cons_append]
      by_cases hstop : stop t = true
      · simp only [hstop, if_true]
        rfl
      · simp only [hstop] at hs ⊢
        exact join h (itemsWithin stop h bound) hnil List.cons (t :: rest) hs

theorem itemsUntil (stop : Token → Bool) {item : Parser α} (ha : Advances item)
    (h : Steady more False item) : Steady more False (Parser.itemsUntil stop item) := by
  intro ts hs
  have hbound : Parser.itemsUntil stop item ts = Parser.itemsWithin stop item (ts ++ more) ts :=
    AgreeBelow.itemsWithin (n := ts.length + 1) stop ha (.refl item) ts (ts ++ more) ts
      (Nat.le_refl _) (by simp) (Nat.lt_succ_self _)
  rw [hbound] at hs ⊢
  exact itemsWithin stop h (ts ++ more) ts hs

theorem commaList {item : Parser α} (hc : Consumes item) (hneeds : Hungry item)
    (h : Steady more False item) : Steady more False (Parser.commaList item) := by
  refine .nextHungry (fun _ => .ite (.pure []) ?_) (hneeds.bind _)
  exact join h (many _ (fun _ => hc) fun _ => h) rfl List.cons

end Steady

end Parser

end WordC
