import WordC.Parser.Basic

/-!
# Runs of parsers

When the primitive parsers succeed and what they leave, and how far a parser gets:

* `Consumes p`: what `p` leaves is an end of what it was given, also when it fails;
* `Advances p`: and where `p` succeeds it has taken a token;
* `AgreeBelow n p q`: `p` and `q` do the same on fewer than `n` tokens.

A loop follows the tokens that it begins with, so it has a round for each of them. As long as its
phrases take no token back that is enough, and the bound drops out: `many_cons`, `itemsUntil_cons`.
-/

namespace WordC.Parser

variable {α β ω : Type} {ts rest : List Token} {t : Token} {wanted : Token → Bool}

/-! ### Successful runs -/

theorem pure_eq_ok_iff {a b : α} : (pure a : Parser α) ts = .ok b rest ↔ a = b ∧ ts = rest := by
  rw [pure_apply, Reply.ok.injEq]

theorem bind_of_ok {p : Parser α} {f : α → Parser β} {a : α} (h : p ts = .ok a rest) :
    (p >>= f) ts = f a rest := by
  rw [bind_apply, h]

theorem fault_eq_ok_iff {pos : Position} {cause : Cause} {a : α} :
    (fault pos cause : Parser α) ts = .ok a rest ↔ False := by
  simp [fault]

theorem refuse_eq_ok_iff {expected : String} {a : α} :
    (refuse t expected : Parser α) ts = .ok a rest ↔ False := by
  simp [refuse]

theorem token_eq_ok_iff {expected : String} :
    token expected ts = .ok t rest ↔ ts = t :: rest := by
  cases ts with
  | nil => simp [token]
  | cons first others => simp [token]

theorem peek_eq_ok_iff {expected : String} :
    peek expected ts = .ok t rest ↔ ts.head? = some t ∧ ts = rest := by
  cases ts with
  | nil => simp [peek]
  | cons first others => simp [peek]

theorem expect_eq_ok_iff {expected : String} :
    expect wanted expected ts = .ok t rest ↔ ts = t :: rest ∧ wanted t = true := by
  cases ts with
  | nil => simp [expect]
  | cons first others =>
    by_cases h : wanted first = true
    · simp only [expect, h, if_true, Reply.ok.injEq, List.cons.injEq]
      constructor
      · rintro ⟨rfl, rfl⟩
        exact ⟨⟨rfl, rfl⟩, h⟩
      · exact And.left
    · rw [expect, if_neg h, refuse_eq_ok_iff, List.cons.injEq, false_iff]
      rintro ⟨⟨rfl, -⟩, ht⟩
      exact h ht

theorem mark_eq_ok_iff {m : Mark} :
    mark m ts = .ok t rest ↔ ts = t :: rest ∧ t.kind = .mark m := by
  simp [mark, expect_eq_ok_iff, isMark]

theorem keyword_eq_ok_iff {k : Keyword} :
    keyword k ts = .ok t rest ↔ ts = t :: rest ∧ t.kind = .keyword k := by
  simp [keyword, expect_eq_ok_iff, isKeyword]

theorem identifier_eq_ok_iff :
    identifier ts = .ok t rest ↔ ts = t :: rest ∧ t.kind = .identifier := by
  simp [identifier, expect_eq_ok_iff, isIdentifier]

theorem accept_eq_ok_some_iff :
    accept wanted ts = .ok (some t) rest ↔ ts = t :: rest ∧ wanted t = true := by
  cases ts with
  | nil => simp [accept]
  | cons first others =>
    by_cases h : wanted first = true
    · simp only [accept, h, if_true, Reply.ok.injEq, Option.some.injEq, List.cons.injEq]
      constructor
      · rintro ⟨rfl, rfl⟩
        exact ⟨⟨rfl, rfl⟩, h⟩
      · exact And.left
    · rw [accept, if_neg h, Reply.ok.injEq, List.cons.injEq]
      simp only [reduceCtorEq, false_and, false_iff]
      rintro ⟨⟨rfl, -⟩, ht⟩
      exact h ht

theorem accept_eq_ok_none_iff :
    accept wanted ts = .ok none rest ↔ ts = rest ∧ rest.head?.any wanted = false := by
  cases ts with
  | nil =>
    simp only [accept, Reply.ok.injEq, true_and]
    constructor
    · rintro rfl
      exact ⟨rfl, rfl⟩
    · exact And.left
  | cons first others =>
    by_cases h : wanted first = true
    · simp only [accept, h, if_true, Reply.ok.injEq, reduceCtorEq, false_and, false_iff]
      rintro ⟨rfl, hnone⟩
      simp [h] at hnone
    · rw [accept, if_neg h, Reply.ok.injEq]
      constructor
      · rintro ⟨-, rfl⟩
        exact ⟨rfl, by simpa using h⟩
      · exact fun hrest => ⟨rfl, hrest.1⟩

theorem next_eq_ok_iff {b : Bool} :
    next wanted ts = .ok b rest ↔ ts.head?.any wanted = b ∧ ts = rest := by
  rw [next, Reply.ok.injEq]

/-! ### What is left -/

/-- The parser leaves an end of the tokens, also when it fails. -/
def Consumes (p : Parser α) : Prop := ∀ ts, (p ts).rest <:+ ts

/-- The parser leaves an end of the tokens, and where it succeeds fewer than there were. -/
structure Advances (p : Parser α) : Prop where
  consumes : Consumes p
  shorter : ∀ {ts rest : List Token} {a : α}, p ts = .ok a rest → rest.length < ts.length

theorem Consumes.length_le {p : Parser α} (h : Consumes p) {a : α} (hrun : p ts = .ok a rest) :
    rest.length ≤ ts.length := by
  have hsuffix := h ts
  rw [hrun] at hsuffix
  exact hsuffix.length_le

namespace Consumes

variable {p : Parser α}

theorem pure (a : α) : Consumes (Pure.pure a : Parser α) := fun ts => List.suffix_refl ts

theorem fault (pos : Position) (cause : Cause) : Consumes (Parser.fault pos cause : Parser α) :=
  fun ts => List.suffix_refl ts

theorem refuse (t : Token) (expected : String) : Consumes (Parser.refuse t expected : Parser α) :=
  fun ts => List.suffix_refl ts

theorem next (wanted : Token → Bool) : Consumes (Parser.next wanted) :=
  fun ts => List.suffix_refl ts

theorem peek (expected : String) : Consumes (Parser.peek expected) := by
  intro ts
  cases ts with
  | nil => exact List.suffix_refl []
  | cons t rest => exact List.suffix_refl (t :: rest)

theorem accept (wanted : Token → Bool) : Consumes (Parser.accept wanted) := by
  intro ts
  cases ts with
  | nil => exact List.suffix_refl []
  | cons t rest =>
    rw [Parser.accept]
    split
    · exact List.suffix_cons t rest
    · exact List.suffix_refl (t :: rest)

theorem bind {f : α → Parser β} (h : Consumes p) (hf : ∀ a, Consumes (f a)) :
    Consumes (p >>= f) := by
  intro ts
  have hp := h ts
  rw [bind_apply]
  cases hrun : p ts with
  | error failure rest =>
    rw [hrun] at hp
    exact hp
  | ok a rest =>
    rw [hrun] at hp
    exact (hf a rest).trans hp

theorem ite {c : Prop} [Decidable c] {q : Parser α} (hp : Consumes p) (hq : Consumes q) :
    Consumes (if c then p else q) := by
  split
  · exact hp
  · exact hq

end Consumes

namespace Advances

variable {p : Parser α}

theorem fault (pos : Position) (cause : Cause) : Advances (Parser.fault pos cause : Parser α) :=
  ⟨.fault pos cause, fun h => (fault_eq_ok_iff.1 h).elim⟩

theorem token (expected : String) : Advances (Parser.token expected) := by
  constructor
  · intro ts
    cases ts with
    | nil => exact List.suffix_refl []
    | cons t rest => exact List.suffix_cons t rest
  · intro ts rest t h
    rw [token_eq_ok_iff.1 h, List.length_cons]
    omega

theorem expect (wanted : Token → Bool) (expected : String) :
    Advances (Parser.expect wanted expected) := by
  constructor
  · intro ts
    cases ts with
    | nil => exact List.suffix_refl []
    | cons t rest =>
      rw [Parser.expect]
      split
      · exact List.suffix_cons t rest
      · exact List.suffix_refl (t :: rest)
  · intro ts rest t h
    rw [(expect_eq_ok_iff.1 h).1, List.length_cons]
    omega

theorem mark (m : Mark) : Advances (Parser.mark m) := .expect _ _

theorem keyword (k : Keyword) : Advances (Parser.keyword k) := .expect _ _

theorem identifier : Advances Parser.identifier := .expect _ _

/-- A sequence whose first part takes a token. -/
theorem bind {f : α → Parser β} (h : Advances p) (hf : ∀ a, Consumes (f a)) :
    Advances (p >>= f) := by
  refine ⟨h.consumes.bind hf, fun hrun => ?_⟩
  obtain ⟨a, mid, ha, hb⟩ := bind_eq_ok_iff.1 hrun
  have hle := (hf a).length_le hb
  have hlt := h.shorter ha
  omega

/-- A sequence whose second part takes a token. -/
theorem after {f : α → Parser β} (h : Consumes p) (hf : ∀ a, Advances (f a)) :
    Advances (p >>= f) := by
  refine ⟨h.bind fun a => (hf a).consumes, fun hrun => ?_⟩
  obtain ⟨a, mid, ha, hb⟩ := bind_eq_ok_iff.1 hrun
  have hle := h.length_le ha
  have hlt := (hf a).shorter hb
  omega

theorem ite {c : Prop} [Decidable c] {q : Parser α} (hp : Advances p) (hq : Advances q) :
    Advances (if c then p else q) := by
  split
  · exact hp
  · exact hq

end Advances

/-! ### Loops -/

theorem Consumes.manyWithin (select : Token → Option ω) {phrase : ω → Parser α}
    (h : ∀ w, Consumes (phrase w)) :
    ∀ bound, Consumes (Parser.manyWithin select phrase bound)
  | [] => fun ts => List.suffix_refl ts
  | _ :: bound => by
    intro ts
    rw [Parser.manyWithin]
    cases ts with
    | nil => exact List.suffix_refl []
    | cons t rest =>
      cases hselect : select t with
      | none =>
        simp only [hselect]
        exact List.suffix_refl (t :: rest)
      | some w =>
        have hround := (h w).bind fun a => (manyWithin select h bound).bind fun as =>
          .pure (a :: as)
        simp only [hselect]
        exact (hround rest).trans (List.suffix_cons t rest)

theorem Consumes.many (select : Token → Option ω) {phrase : ω → Parser α}
    (h : ∀ w, Consumes (phrase w)) : Consumes (Parser.many select phrase) :=
  fun ts => manyWithin select h ts ts

theorem Consumes.itemsWithin (stop : Token → Bool) {item : Parser α} (h : Consumes item) :
    ∀ bound, Consumes (Parser.itemsWithin stop item bound)
  | [] => fun ts => List.suffix_refl ts
  | _ :: bound => by
    intro ts
    rw [Parser.itemsWithin]
    cases ts with
    | nil => exact List.suffix_refl []
    | cons t rest =>
      by_cases hstop : stop t = true
      · simp only [hstop, if_true]
        exact List.suffix_refl (t :: rest)
      · have hround := h.bind fun a => (itemsWithin stop h bound).bind fun as =>
          .pure (a :: as)
        simp only [hstop]
        exact hround (t :: rest)

theorem Consumes.itemsUntil (stop : Token → Bool) {item : Parser α} (h : Consumes item) :
    Consumes (Parser.itemsUntil stop item) :=
  fun ts => itemsWithin stop h ts ts

theorem Consumes.commaList {item : Parser α} (h : Consumes item) :
    Consumes (Parser.commaList item) := by
  refine .bind (.next _) fun closed => .ite (.pure []) ?_
  exact .bind h fun first => .bind (.many _ fun _ => h) fun others => .pure _

/-- On fewer than `n` tokens the two parsers do the same. -/
def AgreeBelow (n : Nat) (p q : Parser α) : Prop := ∀ ts, ts.length < n → p ts = q ts

namespace AgreeBelow

variable {n m : Nat} {p p' : Parser α}

theorem refl (p : Parser α) : AgreeBelow n p p := fun _ _ => rfl

theorem mono (h : AgreeBelow n p p') (hm : m ≤ n) : AgreeBelow m p p' :=
  fun ts hts => h ts (Nat.lt_of_lt_of_le hts hm)

theorem bind {f f' : α → Parser β} (h : AgreeBelow n p p') (hp : Consumes p)
    (hf : ∀ a, AgreeBelow n (f a) (f' a)) : AgreeBelow n (p >>= f) (p' >>= f') := by
  intro ts hts
  rw [bind_apply, bind_apply, ← h ts hts]
  cases hrun : p ts with
  | error failure rest => rfl
  | ok a rest => exact hf a rest (Nat.lt_of_le_of_lt (hp.length_le hrun) hts)

/-- Behind a part that takes a token there is one token less. -/
theorem after {f f' : α → Parser β} (hp : Advances p) (hf : ∀ a, AgreeBelow n (f a) (f' a)) :
    AgreeBelow (n + 1) (p >>= f) (p >>= f') := by
  intro ts hts
  rw [bind_apply, bind_apply]
  cases hrun : p ts with
  | error failure rest => rfl
  | ok a rest =>
    have hlt := hp.shorter hrun
    exact hf a rest (by omega)

theorem ite {c : Prop} [Decidable c] {q q' : Parser α} (hp : AgreeBelow n p p')
    (hq : AgreeBelow n q q') : AgreeBelow n (if c then p else q) (if c then p' else q') := by
  split
  · exact hp
  · exact hq

/-- Loops with enough rounds agree; each round takes a token before its phrase. -/
theorem manyWithin (select : Token → Option ω) {phrase phrase' : ω → Parser α}
    (hp : ∀ w, Consumes (phrase w)) (h : ∀ w, AgreeBelow n (phrase w) (phrase' w)) :
    ∀ (bound bound' ts : List Token), ts.length ≤ bound.length → ts.length ≤ bound'.length →
      ts.length ≤ n →
      Parser.manyWithin select phrase bound ts = Parser.manyWithin select phrase' bound' ts
  | [], [], [], _, _, _ => rfl
  | [], _ :: _, [], _, _, _ => rfl
  | _ :: _, [], [], _, _, _ => rfl
  | _ :: _, _ :: _, [], _, _, _ => rfl
  | _ :: bound, _ :: bound', t :: rest, hb, hb', hn => by
    simp only [List.length_cons] at hb hb' hn
    rw [Parser.manyWithin, Parser.manyWithin]
    cases hselect : select t with
    | none => simp only [hselect]
    | some w =>
      simp only [hselect, bind_apply, ← h w rest (by omega)]
      cases hrun : phrase w rest with
      | error failure mid => rfl
      | ok a mid =>
        have hle := (hp w).length_le hrun
        have hrest := manyWithin select hp h bound bound' mid (by omega) (by omega)
          (by omega)
        simp only [hrest]

theorem many (select : Token → Option ω) {phrase phrase' : ω → Parser α}
    (hp : ∀ w, Consumes (phrase w)) (h : ∀ w, AgreeBelow n (phrase w) (phrase' w)) :
    AgreeBelow (n + 1) (Parser.many select phrase) (Parser.many select phrase') :=
  fun ts hts =>
    manyWithin select hp h ts ts ts (Nat.le_refl _) (Nat.le_refl _) (Nat.le_of_lt_succ hts)

/-- Here it is the items that take the tokens. -/
theorem itemsWithin (stop : Token → Bool) {item item' : Parser α} (hi : Advances item)
    (h : AgreeBelow n item item') :
    ∀ (bound bound' ts : List Token), ts.length ≤ bound.length → ts.length ≤ bound'.length →
      ts.length < n →
      Parser.itemsWithin stop item bound ts = Parser.itemsWithin stop item' bound' ts
  | [], [], [], _, _, _ => rfl
  | [], _ :: _, [], _, _, _ => rfl
  | _ :: _, [], [], _, _, _ => rfl
  | _ :: _, _ :: _, [], _, _, _ => rfl
  | _ :: bound, _ :: bound', t :: rest, hb, hb', hn => by
    rw [Parser.itemsWithin, Parser.itemsWithin]
    by_cases hstop : stop t = true
    · simp only [hstop, if_true]
    · simp only [hstop, bind_apply, ← h (t :: rest) hn]
      simp only [List.length_cons] at hb hb' hn
      cases hrun : item (t :: rest) with
      | error failure mid => rfl
      | ok a mid =>
        have hlt := hi.shorter hrun
        rw [List.length_cons] at hlt
        have hrest := itemsWithin stop hi h bound bound' mid (by omega) (by omega) (by omega)
        simp only [hrest]

theorem itemsUntil (stop : Token → Bool) {item item' : Parser α} (hi : Advances item)
    (h : AgreeBelow n item item') :
    AgreeBelow n (Parser.itemsUntil stop item) (Parser.itemsUntil stop item') :=
  fun ts hts => itemsWithin stop hi h ts ts ts (Nat.le_refl _) (Nat.le_refl _) hts

theorem commaList {item item' : Parser α} (hi : Consumes item) (h : AgreeBelow n item item') :
    AgreeBelow n (Parser.commaList item) (Parser.commaList item') := by
  refine .bind (.refl _) (.next _) fun closed => .ite (.refl _) ?_
  refine .bind h hi fun first => ?_
  have hothers : AgreeBelow (n + 1) (Parser.many (onMark .comma) fun _ => item)
      (Parser.many (onMark .comma) fun _ => item') := .many _ (fun _ => hi) fun _ => h
  exact .bind (hothers.mono (Nat.le_succ n)) (.many _ fun _ => hi) fun others => .refl _

end AgreeBelow

section Loops

variable {select : Token → Option ω} {phrase : ω → Parser α} {stop : Token → Bool}
  {item : Parser α}

theorem many_of_none (h : ∀ t ∈ ts.head?, select t = none) : many select phrase ts = .ok [] ts := by
  cases ts with
  | nil => rfl
  | cons t rest =>
    have ht : select t = none := h t rfl
    simp [many, manyWithin, ht]

/-- A round of a loop, and the rest of the loop behind it. -/
theorem many_cons (hp : ∀ w, Consumes (phrase w)) {w : ω} (h : select t = some w) :
    many select phrase (t :: rest) = (do
      let a ← phrase w
      let as ← many select phrase
      pure (a :: as)) rest := by
  rw [many, manyWithin]
  simp only [h, bind_apply]
  cases hrun : phrase w rest with
  | error failure mid => rfl
  | ok a mid =>
    have hbound := AgreeBelow.manyWithin (n := rest.length) select hp
      (fun w => .refl (phrase w)) rest mid mid ((hp w).length_le hrun) (Nat.le_refl _)
      ((hp w).length_le hrun)
    simp only [hbound, many]

theorem many_eq_ok_of_cons (hp : ∀ w, Consumes (phrase w)) {w : ω} (h : select t = some w) {a : α}
    {as : List α} {mid : List Token} (ha : phrase w ts = .ok a mid)
    (has : many select phrase mid = .ok as rest) :
    many select phrase (t :: ts) = .ok (a :: as) rest := by
  rw [many_cons hp h]
  exact bind_eq_ok_iff.2 ⟨a, mid, ha, bind_eq_ok_iff.2 ⟨as, rest, has, rfl⟩⟩

/-- Where the phrases are folded, a round of the loop is a step of the fold. -/
theorem many_foldl (hp : ∀ w, Consumes (phrase w)) {g : β → α → β} {b : β} {w : ω} {a : α}
    (h : select t = some w) (ha : phrase w ts = .ok a rest) :
    (do
      let as ← many select phrase
      pure (as.foldl g b)) (t :: ts) =
    (do
      let as ← many select phrase
      pure (as.foldl g (g b a))) rest := by
  simp only [bind_apply, many_cons hp h, ha]
  cases many select phrase rest with
  | error failure mid => rfl
  | ok as mid => rfl

/-- What holds where a loop ends, and of a round in front of a loop, holds of every loop. -/
@[elab_as_elim]
theorem many_induct {motive : List Token → List α → List Token → Prop}
    (done : ∀ ts, motive ts [] ts)
    (round : ∀ {t : Token} {ts mid rest : List Token} {w : ω} {a : α} {as : List α},
      select t = some w → phrase w ts = .ok a mid → motive mid as rest →
        motive (t :: ts) (a :: as) rest)
    {as : List α} (h : many select phrase ts = .ok as rest) : motive ts as rest := by
  suffices hbound : ∀ (bound : List Token) {ts : List Token} {as : List α},
      manyWithin select phrase bound ts = .ok as rest → motive ts as rest from hbound ts h
  intro bound
  induction bound with
  | nil =>
    intro ts as h
    cases h
    exact done _
  | cons _ bound ih =>
    intro ts as h
    cases ts with
    | nil =>
      cases h
      exact done _
    | cons t ts =>
      rw [manyWithin] at h
      cases hselect : select t with
      | none =>
        simp only [hselect] at h
        cases h
        exact done _
      | some w =>
        simp only [hselect, bind_eq_ok_iff, pure_eq_ok_iff] at h
        obtain ⟨a, mid, ha, as, _, has, rfl, rfl⟩ := h
        exact round hselect ha (ih has)

/-- A chain of items with a mark between them, which ends where the rest begins. -/
def Chain (m : Mark) (item : Parser α) (ts : List Token) (as : List α) (rest : List Token) : Prop :=
  ∃ first others mid, as = first :: others ∧ item ts = .ok first mid ∧
    many (onMark m) (fun _ => item) mid = .ok others rest

theorem onMark_eq_some_iff {m : Mark} : onMark m t = some () ↔ t.kind = .mark m := by
  unfold onMark
  by_cases h : t.kind = .mark m <;> simp [isMark, h]

theorem Chain.one {m : Mark} {a : α} (ha : item ts = .ok a rest)
    (hrest : rest.head?.any (isMark m) = false) : Chain m item ts [a] rest := by
  refine ⟨a, [], rest, rfl, ha, many_of_none fun t ht => ?_⟩
  rw [Option.mem_def.1 ht] at hrest
  simpa [onMark] using hrest

theorem Chain.more {m : Mark} {us : List Token} {a : α} {as : List α} (hc : Consumes item)
    (ha : item ts = .ok a (t :: us)) (ht : t.kind = .mark m) (has : Chain m item us as rest) :
    Chain m item ts (a :: as) rest := by
  obtain ⟨first, others, mid, rfl, hfirst, hothers⟩ := has
  exact ⟨a, first :: others, t :: us, rfl, ha,
    many_eq_ok_of_cons (fun _ => hc) (onMark_eq_some_iff.2 ht) hfirst hothers⟩

theorem commaList_of_chain {as : List α} (hopen : ts.head?.any (isMark .closeParen) = false)
    (h : Chain .comma item ts as rest) : commaList item ts = .ok as rest := by
  obtain ⟨first, others, mid, rfl, hfirst, hothers⟩ := h
  have hnext : next (isMark .closeParen) ts = .ok false ts := next_eq_ok_iff.2 ⟨hopen, rfl⟩
  exact (bind_of_ok hnext).trans ((bind_of_ok hfirst).trans (bind_of_ok hothers))

theorem commaList_of_closeParen (hclosed : ts.head?.any (isMark .closeParen) = true) :
    commaList item ts = .ok [] ts :=
  bind_of_ok (next_eq_ok_iff.2 ⟨hclosed, rfl⟩)

theorem itemsUntil_nil : itemsUntil stop item [] = .ok [] [] := rfl

theorem itemsUntil_of_stop (h : stop t = true) :
    itemsUntil stop item (t :: rest) = .ok [] (t :: rest) := by
  simp [itemsUntil, itemsWithin, h]

/-- An item, and the items behind it. -/
theorem itemsUntil_cons (hi : Advances item) (h : stop t = false) :
    itemsUntil stop item (t :: rest) = (do
      let a ← item
      let as ← itemsUntil stop item
      pure (a :: as)) (t :: rest) := by
  rw [itemsUntil, itemsWithin]
  simp only [h, Bool.false_eq_true, if_false, bind_apply]
  cases hrun : item (t :: rest) with
  | error failure mid => rfl
  | ok a mid =>
    have hlt := hi.shorter hrun
    rw [List.length_cons] at hlt
    have hbound := AgreeBelow.itemsWithin (n := mid.length + 1) stop hi (.refl item) rest mid
      mid (by omega) (Nat.le_refl _) (by omega)
    simp only [hbound, itemsUntil]

/-- What holds where the items end, and of an item in front of others, holds of all items. -/
@[elab_as_elim]
theorem itemsUntil_induct {motive : List Token → List α → List Token → Prop}
    (done : ∀ ts, ts.head?.all stop = true → motive ts [] ts)
    (round : ∀ {ts mid rest : List Token} {a : α} {as : List α},
      item ts = .ok a mid → motive mid as rest → motive ts (a :: as) rest)
    (hi : Advances item) {as : List α} (h : itemsUntil stop item ts = .ok as rest) :
    motive ts as rest := by
  induction hn : ts.length using Nat.strongRecOn generalizing ts as with
  | _ n ih =>
    subst hn
    cases ts with
    | nil =>
      cases h
      exact done [] rfl
    | cons t others =>
      cases hstop : stop t with
      | true =>
        rw [itemsUntil_of_stop hstop] at h
        cases h
        exact done _ hstop
      | false =>
        simp only [itemsUntil_cons hi hstop, bind_eq_ok_iff, pure_eq_ok_iff] at h
        obtain ⟨a, mid, ha, as, _, has, rfl, rfl⟩ := h
        exact round ha (ih _ (hi.shorter ha) has rfl)

end Loops

end WordC.Parser
