import WordC.Proofs.Text.Words

/-!
# Pieces of a source

What is cut off the front of a text, said without the order in which the rules are tried.

* `IsPiece`: the pieces, each with what may not follow it. A word or a numeral ends where it cannot
  go on, a mark of one character is not the start of a longer one, and a comment or directive goes
  up to the end of its line;
* `IsMisread`: the texts that are refused, with the cause;
* `isPiece_of_nextPiece`, `isMisread_of_nextPiece`: `nextPiece` gives nothing else.
-/

namespace WordC

/-- The character that, right behind a mark of one character, makes something else of both: a mark
of two characters, or the start of a comment. -/
def Mark.completion? : Mark → Option Char
  | .bar => some '|'
  | .amp => some '&'
  | .bang | .equal | .less | .greater => some '='
  | .slash => some '/'
  | _ => none

namespace Mark

theorem lexeme_of_ofPair? {a b : Char} {m : Mark} (h : ofPair? a b = some m) :
    m.lexeme.toList = [a, b] := by
  unfold ofPair? at h
  split at h <;> cases h <;> rfl

theorem lexeme_of_ofChar? {a : Char} {m : Mark} (h : ofChar? a = some m) :
    m.lexeme.toList = [a] := by
  unfold ofChar? at h
  split at h <;> cases h <;> rfl

/-- A mark of two characters is complete. -/
theorem completion?_of_ofPair? {a b : Char} {m : Mark} (h : ofPair? a b = some m) :
    m.completion? = none := by
  unfold ofPair? at h
  split at h <;> cases h <;> rfl

/-- A completion makes a mark of two characters, or two slashes. -/
theorem isPair_of_completion? {a b : Char} {m : Mark} (h : ofChar? a = some m)
    (hb : m.completion? = some b) : (ofPair? a b).isSome = true ∨ a = '/' ∧ b = '/' := by
  unfold ofChar? at h
  split at h <;> cases h <;> cases hb <;> decide

end Mark

namespace Scan
open Text

/-- What follows does not begin with a character of a kind. -/
def StopsAt (more : Char → Bool) (rest : List Char) : Prop := ∀ c ∈ rest.head?, more c = false

/-- A comment or a directive in front of the rest of a text: it begins with `//` or `#` and goes up
to the end of its line, which is not part of it. -/
structure IsSkipped (run rest : List Char) : Prop where
  begins : ['/', '/'] <+: run ∨ ['#'] <+: run
  inLine : '\n' ∉ run
  ends : ∀ c ∈ rest.head?, c = '\n'

/-- The pieces that a text can begin with. -/
inductive IsPiece : Piece → Prop
  | mark {m : Mark} {rest : List Char} (hrest : ∀ c ∈ rest.head?, m.completion? ≠ some c) :
    IsPiece ⟨some (.mark m, m.lexeme.toList), m.lexeme.toList, rest⟩
  | line {run rest : List Char} (h : IsSkipped run rest) : IsPiece ⟨none, run, rest⟩
  | blank {c : Char} {rest : List Char} (hc : isBlank c = true) : IsPiece ⟨none, [c], rest⟩
  | word {text rest : List Char} (hname : isName (String.ofList text) = true)
    (hrest : StopsAt isWordChar rest) : IsPiece ⟨some (.identifier, text), text, rest⟩
  | number {c : Char} {run rest : List Char} {value : UInt16} (hc : c.isDigit = true)
    (hrun : ∀ d ∈ c :: run, Numeral.isNumeralChar d = true)
    (hvalue : Numeral.value? (c :: run) = some value)
    (hrest : StopsAt Numeral.isNumeralChar rest) :
    IsPiece ⟨some (.number value, c :: run), c :: run, rest⟩
  | string {text rest : List Char} (htext : ∀ c ∈ text, inQuotes .string c = true) :
    IsPiece ⟨some (.text, text), withQuotes .string text, rest⟩
  | character {c : Char} {rest : List Char} {code : UInt16} (hc : inQuotes .character c = true)
    (hcode : Numeral.word? c.toNat = some code) :
    IsPiece ⟨some (.character code, [c]), withQuotes .character [c], rest⟩

/-- The text at the front of which a cause is found, and what follows it. -/
inductive IsMisread : Cause → List Char → List Char → Prop
  /-- A character that is not blank and begins no token. -/
  | stray {c : Char} {rest : List Char} (hblank : isBlank c = false) :
    IsMisread (.strayCharacter c) [c] rest
  /-- A quote that is not closed on its line. -/
  | unclosed {quote : Quote} {text rest : List Char} (htext : ∀ c ∈ text, inQuotes quote c = true)
    (hrest : StopsAt inLine rest) : IsMisread (.unclosed quote) (quote.mark :: text) rest
  /-- A run of numeral characters that is no number of one word. -/
  | number {c : Char} {run rest : List Char} (hc : c.isDigit = true)
    (hrun : ∀ d ∈ c :: run, Numeral.isNumeralChar d = true)
    (hvalue : Numeral.value? (c :: run) = none) (hrest : StopsAt Numeral.isNumeralChar rest) :
    IsMisread (.badNumber (String.ofList (c :: run))) (c :: run) rest
  /-- A literal that is not one character of one word. -/
  | character {text rest : List Char} (htext : ∀ c ∈ text, inQuotes .character c = true)
    (hcode : characterCode? text = none) :
    IsMisread (.badCharacter (String.ofList text)) (withQuotes .character text) rest

/-! ### Runs of characters -/

theorem stopsAt_dropWhile (more : Char → Bool) (cs : List Char) :
    StopsAt more (cs.dropWhile more) := by
  intro c hc
  have hhead := List.head?_dropWhile_not more cs
  rw [Option.mem_def] at hc
  rwa [hc] at hhead

/-- A literal is closed at its quote, or its line ends. -/
theorem quoted_cases (quote : Quote) (cs : List Char) :
    (∃ text rest, quoted quote cs = .ok (text, rest) ∧ text ++ quote.mark :: rest = cs ∧
      ∀ c ∈ text, inQuotes quote c = true) ∨
    (∃ text rest, quoted quote cs = .error (.unclosed quote) ∧ text ++ rest = cs ∧
      (∀ c ∈ text, inQuotes quote c = true) ∧ StopsAt inLine rest) := by
  have hsplit := List.takeWhile_append_dropWhile (p := inQuotes quote) (l := cs)
  have hstop := stopsAt_dropWhile (inQuotes quote) cs
  unfold quoted
  cases hrest : cs.dropWhile (inQuotes quote) with
  | nil =>
    rw [hrest] at hsplit
    exact .inr ⟨_, [], rfl, hsplit, fun _ => List.mem_takeWhile_imp, nofun⟩
  | cons c rest =>
    rw [hrest] at hsplit hstop
    by_cases hc : c = quote.mark
    · subst hc
      exact .inl ⟨_, rest, by simp, hsplit, fun _ => List.mem_takeWhile_imp⟩
    · refine .inr ⟨_, c :: rest, by simp [hc], hsplit, fun _ => List.mem_takeWhile_imp, ?_⟩
      intro d hd
      -- what stops the literal and is not its quote ends the line
      obtain rfl : c = d := by simpa using hd
      simpa [inQuotes, inLine, hc] using hstop c (by simp)

theorem isNumeralChar_of_isDigit {c : Char} (h : c.isDigit = true) :
    Numeral.isNumeralChar c = true := by
  have hrange : '0' ≤ c ∧ c ≤ '9' := by
    simpa [Char.isDigit, Char.le_def, ge_iff_le] using h
  simp [Numeral.isNumeralChar, Numeral.digit?, hrange]

/-! ### Pieces -/

theorem isPiece_word {c : Char} (hc : c.isAlpha = true) (cs : List Char) : IsPiece (word c cs) := by
  refine .word (isName_iff.2 ⟨c, _, String.toList_ofList, hc, fun d => List.mem_takeWhile_imp⟩) ?_
  exact stopsAt_dropWhile isWordChar cs

theorem isNumeralChar_numeralText {c : Char} (hc : c.isDigit = true) (cs : List Char) :
    ∀ d ∈ numeralText c cs, Numeral.isNumeralChar d = true := by
  intro d hd
  rcases List.mem_cons.1 hd with rfl | hd
  · exact isNumeralChar_of_isDigit hc
  · exact List.mem_takeWhile_imp hd

/-- What does not begin with a mark, a comment or a directive. -/
theorem nextWord_cases (c : Char) (cs : List Char) :
    (∃ piece, nextWord c cs = .ok piece ∧ IsPiece piece) ∨
    (∃ cause lexeme rest, nextWord c cs = .error cause ∧ lexeme ++ rest = c :: cs ∧
      IsMisread cause lexeme rest) := by
  unfold nextWord
  by_cases hblank : isBlank c = true
  · exact .inl ⟨_, if_pos hblank, .blank hblank⟩
  rw [if_neg hblank]
  by_cases halpha : c.isAlpha = true
  · exact .inl ⟨_, if_pos halpha, isPiece_word halpha cs⟩
  rw [if_neg halpha]
  by_cases hstring : c = '"'
  · rw [if_pos hstring, stringLiteral]
    obtain ⟨text, rest, hq, -, htext⟩ | ⟨text, rest, hq, rfl, htext, hrest⟩ :=
      quoted_cases .string cs
    · exact .inl ⟨_, by rw [hq], .string htext⟩
    · exact .inr ⟨_, _, rest, by rw [hq], by rw [hstring]; rfl, .unclosed htext hrest⟩
  rw [if_neg hstring]
  by_cases hcharacter : c = '\''
  · rw [if_pos hcharacter, characterLiteral]
    obtain ⟨text, rest, hq, rfl, htext⟩ | ⟨text, rest, hq, rfl, htext, hrest⟩ :=
      quoted_cases .character cs
    · cases hcode : characterCode? text with
      | none =>
        refine .inr ⟨_, _, rest, ?_, ?_, .character htext hcode⟩
        · rw [hq]
          simp only [hcode]
        · simp [withQuotes, hcharacter, Quote.mark]
      | some code =>
        obtain ⟨d, rfl⟩ : ∃ d, text = [d] := by
          unfold characterCode? at hcode
          split at hcode
          · exact ⟨_, rfl⟩
          · cases hcode
        refine .inl ⟨⟨_, _, rest⟩, ?_, .character (htext d (by simp)) hcode⟩
        rw [hq]
        simp only [hcode]
    · exact .inr ⟨_, _, rest, by rw [hq], by rw [hcharacter]; rfl, .unclosed htext hrest⟩
  rw [if_neg hcharacter]
  by_cases hdigit : c.isDigit = true
  · rw [if_pos hdigit, numeral]
    have hrun := isNumeralChar_numeralText hdigit cs
    have hrest := stopsAt_dropWhile Numeral.isNumeralChar cs
    cases hvalue : Numeral.value? (numeralText c cs) with
    | some value => exact .inl ⟨_, rfl, .number hdigit hrun hvalue hrest⟩
    | none =>
      refine .inr ⟨_, numeralText c cs, _, rfl, ?_, .number hdigit hrun hvalue hrest⟩
      simp [numeralText]
  · rw [if_neg hdigit]
    exact .inr ⟨_, [c], cs, rfl, rfl, .stray (by simpa using hblank)⟩

theorem ofPair?_of_pairMark? {c d : Char} {cs rest : List Char} {m : Mark}
    (h : pairMark? c cs = some (m, d, rest)) : Mark.ofPair? c d = some m := by
  cases cs with
  | nil => simp [pairMark?] at h
  | cons e tail =>
    simp only [pairMark?, Option.map_eq_some_iff, Prod.mk.injEq] at h
    obtain ⟨_, hm, rfl, rfl, rfl⟩ := h
    exact hm

/-- Where neither a mark of two characters nor a comment begins, a mark of one character is
complete. -/
theorem completion?_ne {c : Char} {cs : List Char} {m : Mark} (hpair : pairMark? c cs = none)
    (hskip : startsSkip c cs = false) (hm : Mark.ofChar? c = some m) :
    ∀ b ∈ cs.head?, m.completion? ≠ some b := by
  intro b hb hcompletion
  cases cs with
  | nil => cases hb
  | cons d tail =>
    obtain rfl : d = b := by simpa using hb
    rcases Mark.isPair_of_completion? hm hcompletion with hsome | ⟨rfl, rfl⟩
    · simp only [pairMark?, Option.map_eq_none_iff] at hpair
      simp [hpair] at hsome
    · simp [startsSkip] at hskip

theorem isSkipped_skipLine {c : Char} {cs : List Char} (h : startsSkip c cs = true) :
    IsSkipped (c :: cs.takeWhile inLine) (cs.dropWhile inLine) := by
  simp only [startsSkip, Bool.or_eq_true, Bool.and_eq_true, decide_eq_true_eq] at h
  refine ⟨?_, ?_, fun d hd => by simpa [inLine] using stopsAt_dropWhile inLine cs d hd⟩
  · rcases h with rfl | ⟨rfl, hhead⟩
    · exact .inr ⟨_, rfl⟩
    · obtain ⟨tail, rfl⟩ : ∃ tail, cs = '/' :: tail := List.head?_eq_some_iff.1 hhead
      exact .inl ⟨tail.takeWhile inLine, rfl⟩
  · intro hmem
    rcases List.mem_cons.1 hmem with rfl | hmem
    · rcases h with h | ⟨h, -⟩ <;> cases h
    · cases List.mem_takeWhile_imp hmem

/-- What a text begins with. -/
theorem nextPiece_cases (c : Char) (cs : List Char) :
    (∃ piece, nextPiece c cs = .ok piece ∧ IsPiece piece) ∨
    (∃ cause lexeme rest, nextPiece c cs = .error cause ∧ lexeme ++ rest = c :: cs ∧
      IsMisread cause lexeme rest) := by
  unfold nextPiece
  cases hpair : pairMark? c cs with
  | some found =>
    obtain ⟨m, d, rest⟩ := found
    have hm := ofPair?_of_pairMark? hpair
    refine .inl ⟨_, rfl, ?_⟩
    rw [← Mark.lexeme_of_ofPair? hm]
    exact .mark fun b _ => by simp [Mark.completion?_of_ofPair? hm]
  | none =>
    by_cases hskip : startsSkip c cs = true
    · exact .inl ⟨skipLine c cs, by simp [hskip], .line (isSkipped_skipLine hskip)⟩
    · cases hm : Mark.ofChar? c with
      | none => simpa [hskip] using nextWord_cases c cs
      | some m =>
        refine .inl ⟨⟨some (.mark m, [c]), [c], cs⟩, by simp [hskip], ?_⟩
        rw [← Mark.lexeme_of_ofChar? hm]
        exact .mark (completion?_ne hpair (by simpa using hskip) hm)

/-- What is cut off is a piece. -/
theorem isPiece_of_nextPiece {c : Char} {cs : List Char} {piece : Piece}
    (h : nextPiece c cs = .ok piece) : IsPiece piece := by
  obtain ⟨piece', hok, hpiece⟩ | ⟨cause, lexeme, rest, herror, -⟩ := nextPiece_cases c cs
  · rw [h] at hok
    cases hok
    exact hpiece
  · rw [h] at herror
    cases herror

/-- What is refused is misread at the front of the text. -/
theorem isMisread_of_nextPiece {c : Char} {cs : List Char} {cause : Cause}
    (h : nextPiece c cs = .error cause) :
    ∃ lexeme rest, lexeme ++ rest = c :: cs ∧ IsMisread cause lexeme rest := by
  obtain ⟨piece, hok, -⟩ | ⟨cause', lexeme, rest, herror, htext, hmisread⟩ := nextPiece_cases c cs
  · rw [h] at hok
    cases hok
  · rw [h] at herror
    cases herror
    exact ⟨lexeme, rest, htext, hmisread⟩

end Scan

end WordC
