import WordC.Parser.Basic

/-!
# What parsers ensure

`Ensures good p post`: on tokens that are all good, a value that `p` gives has the property `post`,
and the tokens it leaves are good. There is a rule for every way in which parsers are put together.
-/

namespace WordC.Parser

variable {α β ω : Type}

/-- On good tokens the values of a parser have a property, and the tokens it leaves are good. -/
def Ensures (good : Token → Prop) (p : Parser α) (post : α → Prop) : Prop :=
  ∀ ts a rest, (∀ t ∈ ts, good t) → p ts = .ok a rest → post a ∧ ∀ t ∈ rest, good t

namespace Ensures

variable {good : Token → Prop} {p : Parser α} {post post' : α → Prop} {wanted : Token → Bool}

theorem pure {a : α} (h : post a) : Ensures good (Pure.pure a : Parser α) post := by
  intro ts b rest hts hrun
  cases hrun
  exact ⟨h, hts⟩

theorem bind {f : α → Parser β} {next : β → Prop} (h : Ensures good p post)
    (hf : ∀ a, post a → Ensures good (f a) next) : Ensures good (p >>= f) next := by
  intro ts b rest hts hrun
  obtain ⟨a, mid, ha, hb⟩ := bind_eq_ok_iff.1 hrun
  obtain ⟨hpost, hmid⟩ := h ts a mid hts ha
  exact hf a hpost mid b rest hmid hb

/-- A sequence whose first value does not matter. -/
theorem andThen {f : α → Parser β} {next : β → Prop} (h : Ensures good p fun _ => True)
    (hf : ∀ a, Ensures good (f a) next) : Ensures good (p >>= f) next :=
  h.bind fun a _ => hf a

theorem mono (h : Ensures good p post) (hpost : ∀ a, post a → post' a) : Ensures good p post' := by
  intro ts a rest hts hrun
  obtain ⟨ha, hrest⟩ := h ts a rest hts hrun
  exact ⟨hpost a ha, hrest⟩

theorem trivial (h : Ensures good p post) : Ensures good p fun _ => True :=
  h.mono fun _ _ => True.intro

theorem ite {c : Prop} [Decidable c] {q : Parser α} (hp : Ensures good p post)
    (hq : Ensures good q post) : Ensures good (if c then p else q) post := by
  split
  · exact hp
  · exact hq

/-! ### One token -/

theorem refuse (t : Token) (expected : String) :
    Ensures good (Parser.refuse t expected : Parser α) post :=
  fun _ _ _ _ hrun => nomatch hrun

theorem fault (pos : Position) (cause : Cause) :
    Ensures good (Parser.fault pos cause : Parser α) post :=
  fun _ _ _ _ hrun => nomatch hrun

theorem peek (expected : String) : Ensures good (Parser.peek expected) good := by
  intro ts a rest hts hrun
  cases ts with
  | nil => cases hrun
  | cons t tail =>
    cases hrun
    exact ⟨hts a List.mem_cons_self, hts⟩

theorem token (expected : String) : Ensures good (Parser.token expected) good := by
  intro ts a rest hts hrun
  cases ts with
  | nil => cases hrun
  | cons t tail =>
    cases hrun
    exact List.forall_mem_cons.1 hts

theorem expect (expected : String) :
    Ensures good (Parser.expect wanted expected) fun t => good t ∧ wanted t = true := by
  intro ts a rest hts hrun
  cases ts with
  | nil => cases hrun
  | cons t tail =>
    rw [Parser.expect] at hrun
    split at hrun
    · rename_i hwanted
      cases hrun
      rw [List.forall_mem_cons] at hts
      exact ⟨⟨hts.1, hwanted⟩, hts.2⟩
    · cases hrun

theorem accept : Ensures good (Parser.accept wanted) fun _ => True := by
  intro ts a rest hts hrun
  refine ⟨True.intro, ?_⟩
  cases ts with
  | nil =>
    cases hrun
    exact hts
  | cons t tail =>
    rw [Parser.accept] at hrun
    split at hrun
    · cases hrun
      exact (List.forall_mem_cons.1 hts).2
    · cases hrun
      exact hts

theorem next : Ensures good (Parser.next wanted) fun _ => True := by
  intro ts a rest hts hrun
  cases hrun
  exact ⟨True.intro, hts⟩

theorem mark (m : Mark) : Ensures good (Parser.mark m) fun _ => True := (expect _).trivial

theorem keyword (k : Keyword) : Ensures good (Parser.keyword k) fun _ => True := (expect _).trivial

/-! ### Repetition -/

/-- A value and those behind it. -/
theorem cons {q : Parser (List α)} (hp : Ensures good p post)
    (hq : Ensures good q fun as => ∀ a ∈ as, post a) :
    Ensures good (do
      let a ← p
      let as ← q
      Pure.pure (a :: as)) fun as => ∀ a ∈ as, post a := by
  refine bind hp fun a ha => ?_
  refine bind hq fun others hothers => pure ?_
  exact List.forall_mem_cons.2 ⟨ha, hothers⟩

theorem manyWithin {select : Token → Option ω} {phrase : ω → Parser α}
    (h : ∀ w, Ensures good (phrase w) post) : ∀ bound,
    Ensures good (Parser.manyWithin select phrase bound) fun as => ∀ a ∈ as, post a
  | [] => by
    intro ts as rest hts hrun
    cases hrun
    exact ⟨by simp, hts⟩
  | _ :: bound => by
    intro ts as rest hts hrun
    rw [Parser.manyWithin] at hrun
    cases ts with
    | nil =>
      cases hrun
      exact ⟨by simp, hts⟩
    | cons t tail =>
      cases hselect : select t with
      | none =>
        simp only [hselect] at hrun
        cases hrun
        exact ⟨by simp, hts⟩
      | some w =>
        simp only [hselect] at hrun
        exact cons (h w) (manyWithin h bound) tail as rest (List.forall_mem_cons.1 hts).2 hrun

theorem many {select : Token → Option ω} {phrase : ω → Parser α}
    (h : ∀ w, Ensures good (phrase w) post) :
    Ensures good (Parser.many select phrase) fun as => ∀ a ∈ as, post a :=
  fun ts => manyWithin h ts ts

theorem itemsWithin {stop : Token → Bool} {item : Parser α} (h : Ensures good item post) : ∀ bound,
    Ensures good (Parser.itemsWithin stop item bound) fun as => ∀ a ∈ as, post a
  | [] => by
    intro ts as rest hts hrun
    cases hrun
    exact ⟨by simp, hts⟩
  | _ :: bound => by
    intro ts as rest hts hrun
    rw [Parser.itemsWithin] at hrun
    cases ts with
    | nil =>
      cases hrun
      exact ⟨by simp, hts⟩
    | cons t tail =>
      by_cases hstop : stop t = true
      · simp only [hstop, if_true] at hrun
        cases hrun
        exact ⟨by simp, hts⟩
      · simp only [hstop] at hrun
        exact cons h (itemsWithin h bound) (t :: tail) as rest hts hrun

theorem itemsUntil {stop : Token → Bool} {item : Parser α} (h : Ensures good item post) :
    Ensures good (Parser.itemsUntil stop item) fun as => ∀ a ∈ as, post a :=
  fun ts => itemsWithin h ts ts

theorem commaList {item : Parser α} (h : Ensures good item post) :
    Ensures good (Parser.commaList item) fun as => ∀ a ∈ as, post a := by
  refine andThen next fun closed => ite (pure (by simp)) ?_
  exact cons h (many fun _ => h)

end Ensures

end WordC.Parser
