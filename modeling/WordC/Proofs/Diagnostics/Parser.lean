import WordC.Parser.Stmt
import WordC.Proofs.Parser.Basic
import WordC.Proofs.Source.Ensures

/-!
# Where the parser reports faults

`Blames places p post`: on tokens at the given places, `p` reports a fault only at one of them. It
adds faults to `Ensures`, and has a rule for the same ways of putting parsers together. All parsers
of the language report at tokens that they were given, and the end of the input is reported at the
last token: `Program.ofTokens_error_mem`.
-/

namespace WordC.Parser

variable {α β ω : Type}

/-- On tokens at the given places, a parser reports faults at these places only, and a value that
it gives has a property. -/
structure Blames (places : List Position) (p : Parser α) (post : α → Prop) : Prop where
  ensures : Ensures (fun t => t.pos ∈ places) p post
  faults : ∀ {ts rest : List Token} {d : Diagnostic}, (∀ t ∈ ts, t.pos ∈ places) →
    p ts = .error (.fault d) rest → d.pos ∈ places

namespace Blames

variable {places : List Position} {p : Parser α} {post : α → Prop} {wanted : Token → Bool}
  {pos : Position} {t : Token}

theorem pure {a : α} (h : post a) : Blames places (Pure.pure a : Parser α) post :=
  ⟨.pure h, fun _ hrun => nomatch hrun⟩

theorem bind {f : α → Parser β} {next : β → Prop} (h : Blames places p post)
    (hf : ∀ a, post a → Blames places (f a) next) : Blames places (p >>= f) next := by
  refine ⟨h.ensures.bind fun a ha => (hf a ha).ensures, fun {ts rest d} hts hrun => ?_⟩
  rw [bind_apply] at hrun
  cases hp : p ts with
  | error failure mid =>
    rw [hp] at hrun
    cases hrun
    exact h.faults hts hp
  | ok a mid =>
    rw [hp] at hrun
    obtain ⟨ha, hmid⟩ := h.ensures ts a mid hts hp
    exact (hf a ha).faults hmid hrun

/-- A sequence whose first value does not matter. -/
theorem andThen {f : α → Parser β} {next : β → Prop} (h : Blames places p post)
    (hf : ∀ a, Blames places (f a) next) : Blames places (p >>= f) next :=
  h.bind fun a _ => hf a

theorem ite {c : Prop} [Decidable c] {q : Parser α} (hp : Blames places p post)
    (hq : Blames places q post) : Blames places (if c then p else q) post := by
  split
  · exact hp
  · exact hq

/-! ### One token -/

theorem fault (hpos : pos ∈ places) (cause : Cause) :
    Blames places (Parser.fault pos cause : Parser α) post := by
  refine ⟨.fault pos cause, fun _ hrun => ?_⟩
  cases hrun
  exact hpos

theorem refuse (ht : t.pos ∈ places) (expected : String) :
    Blames places (Parser.refuse t expected : Parser α) post := by
  refine ⟨.refuse t expected, fun _ hrun => ?_⟩
  cases hrun
  exact ht

theorem peek (expected : String) :
    Blames places (Parser.peek expected) fun t => t.pos ∈ places := by
  refine ⟨.peek expected, fun {ts rest d} _ hrun => ?_⟩
  cases ts <;> cases hrun

theorem token (expected : String) :
    Blames places (Parser.token expected) fun t => t.pos ∈ places := by
  refine ⟨.token expected, fun {ts rest d} _ hrun => ?_⟩
  cases ts <;> cases hrun

theorem expect (expected : String) :
    Blames places (Parser.expect wanted expected) fun t => t.pos ∈ places := by
  refine ⟨(Ensures.expect expected).mono fun _ h => h.1, fun {ts rest d} hts hrun => ?_⟩
  cases ts with
  | nil => cases hrun
  | cons t tail =>
    rw [Parser.expect] at hrun
    split at hrun
    · cases hrun
    · cases hrun
      exact hts t List.mem_cons_self

theorem mark (m : Mark) : Blames places (Parser.mark m) fun t => t.pos ∈ places := expect _

theorem keyword (k : Keyword) : Blames places (Parser.keyword k) fun t => t.pos ∈ places := expect _

theorem identifier : Blames places Parser.identifier fun t => t.pos ∈ places := expect _

theorem accept : Blames places (Parser.accept wanted) fun t => ∀ t' ∈ t, t'.pos ∈ places := by
  constructor
  · intro ts a rest hts hrun
    cases a with
    | none =>
      obtain ⟨rfl, -⟩ := accept_eq_ok_none_iff.1 hrun
      exact ⟨nofun, hts⟩
    | some t =>
      obtain ⟨rfl, -⟩ := accept_eq_ok_some_iff.1 hrun
      rw [List.forall_mem_cons] at hts
      exact ⟨by simpa using hts.1, hts.2⟩
  · intro ts rest d _ hrun
    cases ts with
    | nil => cases hrun
    | cons t tail =>
      rw [Parser.accept] at hrun
      split at hrun <;> cases hrun

theorem next : Blames places (Parser.next wanted) fun _ => True :=
  ⟨.next, fun _ hrun => nomatch hrun⟩

/-! ### Repetition -/

/-- A value and those behind it. -/
theorem cons {q : Parser (List α)} (hp : Blames places p post)
    (hq : Blames places q fun _ => True) :
    Blames places (do
      let a ← p
      let as ← q
      Pure.pure (a :: as)) fun _ => True :=
  .andThen hp fun _ => .andThen hq fun _ => .pure True.intro

theorem manyWithin {select : Token → Option ω} {phrase : ω → Parser α}
    (h : ∀ w, Blames places (phrase w) post) : ∀ bound,
    Blames places (Parser.manyWithin select phrase bound) fun _ => True
  | [] => pure True.intro
  | _ :: bound => by
    refine ⟨(Ensures.manyWithin (fun w => (h w).ensures) _).trivial, fun {ts rest d} hts hrun => ?_⟩
    rw [Parser.manyWithin] at hrun
    cases ts with
    | nil => cases hrun
    | cons t tail =>
      cases hselect : select t with
      | none =>
        simp only [hselect] at hrun
        cases hrun
      | some w =>
        simp only [hselect] at hrun
        exact (cons (h w) (manyWithin h bound)).faults (List.forall_mem_cons.1 hts).2 hrun

theorem many {select : Token → Option ω} {phrase : ω → Parser α}
    (h : ∀ w, Blames places (phrase w) post) :
    Blames places (Parser.many select phrase) fun _ => True :=
  ⟨fun ts => (manyWithin h ts).ensures ts, fun hts hrun => (manyWithin h _).faults hts hrun⟩

theorem itemsWithin {stop : Token → Bool} {item : Parser α} (h : Blames places item post) :
    ∀ bound, Blames places (Parser.itemsWithin stop item bound) fun _ => True
  | [] => pure True.intro
  | _ :: bound => by
    refine ⟨(Ensures.itemsWithin h.ensures _).trivial, fun {ts rest d} hts hrun => ?_⟩
    rw [Parser.itemsWithin] at hrun
    cases ts with
    | nil => cases hrun
    | cons t tail =>
      by_cases hstop : stop t = true
      · simp only [hstop, if_true] at hrun
        cases hrun
      · simp only [hstop] at hrun
        exact (cons h (itemsWithin h bound)).faults hts hrun

theorem itemsUntil {stop : Token → Bool} {item : Parser α} (h : Blames places item post) :
    Blames places (Parser.itemsUntil stop item) fun _ => True :=
  ⟨fun ts => (itemsWithin h ts).ensures ts, fun hts hrun => (itemsWithin h _).faults hts hrun⟩

theorem commaList {item : Parser α} (h : Blames places item post) :
    Blames places (Parser.commaList item) fun _ => True :=
  .andThen next fun _ => .ite (pure True.intro) (cons h (many fun _ => h))

end Blames

/-! ### Levels of expressions -/

section Levels

variable {places : List Position} {inner : Parser Expr}

theorem primaryLevel_blames (h : Blames places inner fun _ => True) :
    Blames places (primaryLevel inner) fun _ => True := by
  refine .bind (.token _) fun t ht => ?_
  cases atom? t with
  | some e => exact .pure True.intro
  | none =>
    refine .ite ?_ (.refuse ht _)
    exact .andThen h fun _ => .andThen (.mark _) fun _ => .pure True.intro

theorem callLevel_blames (h : Blames places inner fun _ => True) :
    Blames places (callLevel inner) fun _ => True := by
  have harguments : Blames places (arguments inner) fun _ => True :=
    .andThen (.commaList h) fun _ => .andThen (.mark _) fun _ => .pure True.intro
  refine .andThen (primaryLevel_blames h) fun _ => ?_
  exact .andThen (.many fun _ => harguments) fun _ => .pure True.intro

theorem unaryLevel_blames (h : Blames places inner fun _ => True) :
    Blames places (unaryLevel inner) fun _ => True := by
  have hop (op : UnaryOp × Position) :
      Blames places (Pure.pure op : Parser (UnaryOp × Position)) fun _ => True := .pure True.intro
  exact .andThen (.many hop) fun _ => .andThen (callLevel_blames h) fun _ => .pure True.intro

theorem leftChain_blames {op? : Token → Option BinaryOp} {operand : Parser Expr}
    (h : Blames places operand fun _ => True) :
    Blames places (leftChain op? operand) fun _ => True := by
  have hround (op : BinaryOp) : Blames places (do
      let e ← operand
      Pure.pure (op, e)) fun _ => True := .andThen h fun _ => .pure True.intro
  exact .andThen h fun _ => .andThen (.many hround) fun _ => .pure True.intro

theorem logicalChain_blames {m : Mark} {op : LogicalOp} {operand : Parser Expr}
    (h : Blames places operand fun _ => True) :
    Blames places (logicalChain m op operand) fun _ => True :=
  .andThen h fun _ => .andThen (.many fun _ => h) fun _ => .pure True.intro

theorem assignLevel_blames (h : Blames places inner fun _ => True) :
    Blames places (assignLevel inner) fun _ => True := by
  have hcomparison : Blames places (equalityLevel inner) fun _ => True :=
    leftChain_blames (leftChain_blames (leftChain_blames (leftChain_blames (unaryLevel_blames h))))
  have hor : Blames places (orLevel inner) fun _ => True :=
    logicalChain_blames (logicalChain_blames hcomparison)
  exact .andThen hor fun _ => .andThen (.many fun _ => hor) fun _ => .pure True.intro

theorem exprWithin_blames : ∀ bound, Blames places (exprWithin bound) fun _ => True
  | [] => ⟨(fun _ _ _ _ hrun => nomatch hrun), fun _ hrun => nomatch hrun⟩
  | _ :: bound => assignLevel_blames (exprWithin_blames bound)

theorem expr_blames : Blames places expr fun _ => True :=
  ⟨fun ts => (exprWithin_blames ts).ensures ts,
    fun hts hrun => (exprWithin_blames _).faults hts hrun⟩

end Levels

/-! ### Declarations -/

variable {places : List Position} {pos : Position}

theorem type_blames : Blames places type fun _ => True := by
  refine .andThen (.expect _) fun t => .bind .accept fun star? hstar => ?_
  cases star? with
  | none => exact .pure True.intro
  | some star =>
    have hplace : star.pos ∈ places := hstar star rfl
    refine .andThen .next fun _ => .ite (.fault hplace _) ?_
    cases ((typeOf? t).getD .void).pointer? with
    | some pointer => exact .pure True.intro
    | none => exact .fault hplace _

theorem parameter_blames : Blames places parameter fun _ => True := by
  refine .bind (.peek _) fun first hfirst => ?_
  refine .andThen type_blames fun ty => .andThen .identifier fun name => ?_
  refine .ite (.fault hfirst _) (.andThen .next fun _ => ?_)
  exact .ite (.fault hfirst _) (.pure True.intro)

theorem parameters_blames : Blames places parameters fun _ => True := by
  have hvoid : Blames places startsVoidList fun _ => True := by
    refine ⟨fun ts a rest hts hrun => ?_, fun _ hrun => nomatch hrun⟩
    cases hrun
    exact ⟨True.intro, hts⟩
  refine .andThen (.mark _) fun _ => .andThen hvoid fun _ => .ite ?_ ?_
  · exact .andThen (.keyword _) fun _ => .andThen (.mark _) fun _ => .pure True.intro
  · refine .andThen (.commaList parameter_blames) fun _ => ?_
    exact .andThen (.mark _) fun _ => .pure True.intro

theorem arrayCount_blames (name : String) : Blames places (arrayCount name) fun _ => True := by
  refine .andThen (.mark _) fun _ => .bind (.expect _) fun size hsize => ?_
  cases size.kind with
  | number n => exact .ite (.fault hsize _) (.andThen (.mark _) fun _ => .pure True.intro)
  | _ => exact .fault hsize _

theorem arrayDeclaration_blames (hpos : pos ∈ places) (constant : Bool) (elem : Ty)
    (name : String) : Blames places (arrayDeclaration pos constant elem name) fun _ => True := by
  refine .andThen (arrayCount_blames name) fun count => ?_
  cases elem.array? count with
  | none => exact .fault hpos _
  | some ty =>
    refine .bind .accept fun equal? hequal => ?_
    cases equal? with
    | some equal => exact .fault (hequal equal rfl) _
    | none => exact .andThen (.mark _) fun _ => .pure True.intro

theorem initializedDeclaration_blames (hpos : pos ∈ places) (constant : Bool) (ty : Ty)
    (name : String) :
    Blames places (initializedDeclaration pos constant ty name) fun _ => True := by
  refine .ite (.fault hpos _) (.andThen (.mark _) fun _ => ?_)
  exact .andThen expr_blames fun _ => .andThen (.mark _) fun _ => .pure True.intro

theorem bareDeclaration_blames (hpos : pos ∈ places) (constant : Bool) (ty : Ty) (name : String) :
    Blames places (bareDeclaration pos constant ty name) fun _ => True :=
  .ite (.fault hpos _) (.andThen (.mark _) fun _ => .pure True.intro)

/-! ### Levels of statements -/

theorem exprUnless_blames (m : Mark) : Blames places (exprUnless m) fun _ => True :=
  .andThen .next fun _ => .ite (.pure True.intro) (.andThen expr_blames fun _ => .pure True.intro)

theorem condition_blames : Blames places condition fun _ => True :=
  .andThen (.mark _) fun _ => .andThen expr_blames fun _ => .andThen (.mark _) fun _ =>
    .pure True.intro

section Nested

variable {inner : Parser Stmt}

theorem functionLevel_blames (h : Blames places inner fun _ => True) (pos : Position) (result : Ty)
    (name : String) : Blames places (functionLevel inner pos result name) fun _ => True := by
  refine .andThen parameters_blames fun params => .andThen .accept fun semicolon? => ?_
  cases semicolon? with
  | some semicolon => exact .pure True.intro
  | none => exact .andThen h fun _ => .pure True.intro

theorem declarationLevel_blames (h : Blames places inner fun _ => True) :
    Blames places (declarationLevel inner) fun _ => True := by
  refine .bind (.peek _) fun first hfirst => .andThen .accept fun const => ?_
  refine .andThen type_blames fun ty => .andThen .identifier fun name => ?_
  refine .bind (.peek _) fun t ht => ?_
  cases declarationForm? t with
  | none => exact .refuse ht _
  | some form =>
    cases form with
    | array => exact arrayDeclaration_blames hfirst _ _ _
    | initialized => exact initializedDeclaration_blames hfirst _ _ _
    | bare => exact bareDeclaration_blames hfirst _ _ _
    | function => exact functionLevel_blames h _ _ _

theorem itemLevel_blames (h : Blames places inner fun _ => True) :
    Blames places (itemLevel inner) fun _ => True :=
  .andThen .next fun _ => .ite (declarationLevel_blames h) h

theorem ifLevel_blames (h : Blames places inner fun _ => True) (pos : Position) :
    Blames places (ifLevel inner pos) fun _ => True := by
  refine .andThen (.keyword _) fun _ => .andThen condition_blames fun cond => ?_
  refine .andThen h fun yes => .andThen .accept fun else? => ?_
  cases else? with
  | none => exact .pure True.intro
  | some word => exact .andThen h fun _ => .pure True.intro

theorem forLevel_blames (h : Blames places inner fun _ => True) (pos : Position) :
    Blames places (forLevel inner pos) fun _ => True := by
  refine .andThen (.keyword _) fun _ => .andThen (.mark _) fun _ => ?_
  refine .andThen (exprUnless_blames _) fun init => .andThen (.mark _) fun _ => ?_
  refine .andThen (exprUnless_blames _) fun cond => .andThen (.mark _) fun _ => ?_
  refine .andThen (exprUnless_blames _) fun step => .andThen (.mark _) fun _ => ?_
  exact .andThen h fun _ => .pure True.intro

theorem stmtLevel_blames (h : Blames places inner fun _ => True) :
    Blames places (stmtLevel inner) fun _ => True := by
  refine .andThen (.peek _) fun t => ?_
  cases stmtForm t with
  | block =>
    refine .andThen (.mark _) fun _ => .andThen (.itemsUntil (itemLevel_blames h)) fun items => ?_
    exact .andThen (.mark _) fun _ => .pure True.intro
  | conditional => exact ifLevel_blames h _
  | whileLoop =>
    refine .andThen (.keyword _) fun _ => .andThen condition_blames fun cond => ?_
    exact .andThen h fun _ => .pure True.intro
  | forLoop => exact forLevel_blames h _
  | ret =>
    refine .andThen (.keyword _) fun _ => .andThen (exprUnless_blames _) fun value => ?_
    exact .andThen (.mark _) fun _ => .pure True.intro
  | expr => exact .andThen expr_blames fun _ => .andThen (.mark _) fun _ => .pure True.intro

end Nested

theorem stmtWithin_blames : ∀ bound, Blames places (stmtWithin bound) fun _ => True
  | [] => ⟨(fun _ _ _ _ hrun => nomatch hrun), fun _ hrun => nomatch hrun⟩
  | _ :: bound => stmtLevel_blames (stmtWithin_blames bound)

theorem stmt_blames : Blames places stmt fun _ => True :=
  ⟨fun ts => (stmtWithin_blames ts).ensures ts,
    fun hts hrun => (stmtWithin_blames _).faults hts hrun⟩

theorem program_blames : Blames places program fun _ => True :=
  .itemsUntil (itemLevel_blames stmt_blames)

end WordC.Parser

namespace WordC

theorem endPosition_mem {tokens : List Token} (h : tokens ≠ []) :
    endPosition tokens ∈ tokens.map Token.pos := by
  rw [endPosition, List.getLast?_eq_some_getLast h]
  exact List.mem_map_of_mem (List.getLast_mem h)

/-- Tokens that are no program are reported at one of them. -/
theorem Program.ofTokens_error_mem {tokens : List Token} {d : Diagnostic}
    (h : Program.ofTokens tokens = .error d) : d.pos ∈ tokens.map Token.pos := by
  rw [ofTokens, ofRest] at h
  cases hrun : Parser.program tokens with
  | ok program rest =>
    rw [hrun] at h
    cases h
  | error failure rest =>
    rw [hrun] at h
    cases h
    cases failure with
    | fault d =>
      have hplaces : ∀ t ∈ tokens, t.pos ∈ tokens.map Token.pos :=
        fun t ht => List.mem_map_of_mem ht
      exact Parser.program_blames.faults hplaces hrun
    | endOfInput expected =>
      -- no tokens at all are the empty program
      refine endPosition_mem fun hnil => ?_
      rw [hnil] at hrun
      cases hrun

end WordC
