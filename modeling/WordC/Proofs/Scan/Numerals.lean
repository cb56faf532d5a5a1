import Mathlib.Data.Nat.Digits.Defs
import WordC.Proofs.Scan.Spacing

/-!
# The values of numerals

A numeral is `0x` with hexadecimal digits behind it, `0b` with binary digits behind it, or decimal
digits alone. Its value is that of its digits, the first one counting most, with any number of
zeros in front.

* `Numeral.Writes`: the numerals and their values, said without an order in which the forms are
  tried;
* `Numeral.nat?_eq_some_iff`: the number that is read is the one written;
* `Scan.Reaches`: the places that a scan comes to, with the tokens on the way;
* `Token.ofSource_numeral`: what the scan makes of a run of numeral characters, wherever it meets
  one.
-/

namespace WordC

namespace Numeral

/-! ### Digits and their values -/

/-- The character is the hexadecimal digit of a value, in either case. -/
def IsDigit (c : Char) (d : Nat) : Prop := d < 16 ∧ (c = d.digitChar ∨ c = d.digitChar.toUpper)

/-- The characters are the digits of a number in a radix, the first one counting most. -/
def IsDigits (radix : Nat) (cs : List Char) (n : Nat) : Prop :=
  ∃ ds : List Nat, ds ≠ [] ∧ List.Forall₂ IsDigit cs ds ∧ (∀ d ∈ ds, d < radix) ∧
    Nat.ofDigits radix ds.reverse = n

/-- The numerals with the numbers that they write. -/
inductive Writes : List Char → Nat → Prop
  | hexadecimal {digits : List Char} {n : Nat} (h : IsDigits 16 digits n) :
    Writes ('0' :: 'x' :: digits) n
  | binary {digits : List Char} {n : Nat} (h : IsDigits 2 digits n) :
    Writes ('0' :: 'b' :: digits) n
  | decimal {digits : List Char} {n : Nat} (h : IsDigits 10 digits n) : Writes digits n

/-- The character is a hexadecimal digit or `x`. -/
def InRun (c : Char) : Prop := (∃ d, IsDigit c d) ∨ c = 'x'

/-- The text begins with a run of hexadecimal digits and `x` that does not go on in the rest. -/
structure IsLongestRun (run rest text : List Char) : Prop where
  append : run ++ rest = text
  inRun : ∀ c ∈ run, InRun c
  ends : ∀ c ∈ rest.head?, ¬ InRun c

theorem digit?_of_isDigit {c : Char} {d : Nat} (h : IsDigit c d) : digit? c = some d := by
  have hall : ∀ d < 16, digit? d.digitChar = some d ∧ digit? d.digitChar.toUpper = some d := by
    decide
  obtain ⟨hlt, rfl | rfl⟩ := h
  · exact (hall d hlt).1
  · exact (hall d hlt).2

instance (c : Char) (d : Nat) : Decidable (IsDigit c d) :=
  inferInstanceAs (Decidable (_ ∧ (_ ∨ _)))

/-- Digits in a row have values in a row. -/
theorem isDigit_of_range {low high c : Char} {d : Nat} (hlow : low ≤ c) (hhigh : c ≤ high)
    (h : ∀ n < high.toNat + 1, low.toNat ≤ n → IsDigit (Char.ofNat n) (n - low.toNat + d)) :
    IsDigit c (c.toNat - low.toNat + d) := by
  have hc := h c.toNat (Nat.lt_succ_of_le hhigh) hlow
  rwa [Char.ofNat_toNat] at hc

theorem isDigit_of_digit? {c : Char} {d : Nat} (h : digit? c = some d) : IsDigit c d := by
  unfold digit? at h
  split at h
  · rename_i hrange
    cases h
    exact isDigit_of_range (d := 0) hrange.1 hrange.2 (by decide)
  split at h
  · rename_i hrange
    cases h
    exact isDigit_of_range hrange.1 hrange.2 (by decide)
  split at h
  · rename_i hrange
    cases h
    exact isDigit_of_range hrange.1 hrange.2 (by decide)
  · cases h

theorem digit?_eq_some_iff {c : Char} {d : Nat} : digit? c = some d ↔ IsDigit c d :=
  ⟨isDigit_of_digit?, digit?_of_isDigit⟩

theorem digitIn?_eq_some_iff {radix : Nat} {c : Char} {d : Nat} :
    digitIn? radix c = some d ↔ IsDigit c d ∧ d < radix := by
  simp [digitIn?, Option.filter_eq_some_iff, digit?_eq_some_iff]

theorem isNumeralChar_iff {c : Char} : isNumeralChar c = true ↔ InRun c := by
  simp only [isNumeralChar, InRun, Bool.or_eq_true, decide_eq_true_eq, Option.isSome_iff_exists,
    digit?_eq_some_iff]

/-- Each text begins with a longest run, which may be empty. -/
theorem isLongestRun_takeWhile (text : List Char) :
    IsLongestRun (text.takeWhile isNumeralChar) (text.dropWhile isNumeralChar) text where
  append := List.takeWhile_append_dropWhile
  inRun _ hc := isNumeralChar_iff.1 (List.mem_takeWhile_imp hc)
  ends c hc hrun := by
    rw [← isNumeralChar_iff, Scan.stopsAt_dropWhile isNumeralChar text c hc] at hrun
    cases hrun

/-! ### The number that is read -/

/-- Reading digits behind a number moves it up by their places and adds their value. -/
theorem digitsFrom?_eq_some_iff {radix : Nat} : ∀ {cs : List Char} {m n : Nat},
    digitsFrom? radix m cs = some n ↔ ∃ ds, List.Forall₂ IsDigit cs ds ∧ (∀ d ∈ ds, d < radix) ∧
      m * radix ^ ds.length + Nat.ofDigits radix ds.reverse = n
  | [], m, n => by simp [digitsFrom?]
  | c :: cs, m, n => by
    have hshift : ∀ d (ds : List Nat),
        m * radix ^ (d :: ds).length + Nat.ofDigits radix (d :: ds).reverse =
          (m * radix + d) * radix ^ ds.length + Nat.ofDigits radix ds.reverse := by
      intro d ds
      rw [List.reverse_cons, Nat.ofDigits_append, List.length_reverse, Nat.ofDigits_singleton,
        List.length_cons, pow_succ]
      ring
    constructor
    · intro h
      rw [digitsFrom?] at h
      split at h
      · rename_i d hd
        obtain ⟨hdigit, hlt⟩ := digitIn?_eq_some_iff.1 hd
        obtain ⟨ds, hds, hsmall, hvalue⟩ := digitsFrom?_eq_some_iff.1 h
        exact ⟨d :: ds, .cons hdigit hds, List.forall_mem_cons.2 ⟨hlt, hsmall⟩,
          by rw [hshift, hvalue]⟩
      · cases h
    · rintro ⟨ds, hds, hsmall, hvalue⟩
      cases hds with
      | @cons _ d _ ds hdigit hds =>
        obtain ⟨hlt, hsmall⟩ := List.forall_mem_cons.1 hsmall
        rw [digitsFrom?, digitIn?_eq_some_iff.2 ⟨hdigit, hlt⟩]
        exact digitsFrom?_eq_some_iff.2 ⟨ds, hds, hsmall, by rw [← hshift, hvalue]⟩

theorem digits?_eq_some_iff {radix : Nat} {cs : List Char} {n : Nat} :
    digits? radix cs = some n ↔ IsDigits radix cs n := by
  cases cs with
  | nil => simp [digits?, IsDigits]
  | cons c cs =>
    have hread : digits? radix (c :: cs) = digitsFrom? radix 0 (c :: cs) := rfl
    rw [hread, digitsFrom?_eq_some_iff]
    constructor
    · rintro ⟨ds, hds, hsmall, hvalue⟩
      refine ⟨ds, ?_, hds, hsmall, by rw [← hvalue, Nat.zero_mul, Nat.zero_add]⟩
      rintro rfl
      cases hds
    · rintro ⟨ds, -, hds, hsmall, hvalue⟩
      exact ⟨ds, hds, hsmall, by rw [hvalue, Nat.zero_mul, Nat.zero_add]⟩

/-- A decimal number has decimal digits only. -/
theorem digitIn?_of_isDigits {radix : Nat} {cs : List Char} {n : Nat} (h : IsDigits radix cs n)
    {c : Char} (hc : c ∈ cs) : (digitIn? radix c).isSome = true := by
  obtain ⟨ds, -, hds, hsmall, -⟩ := h
  clear * - hds hsmall hc
  induction hds with
  | nil => cases hc
  | cons hdigit hds ih =>
    obtain ⟨hlt, hsmall⟩ := List.forall_mem_cons.1 hsmall
    rcases List.mem_cons.1 hc with rfl | hc
    · rw [digitIn?_eq_some_iff.2 ⟨hdigit, hlt⟩]
      rfl
    · exact ih hc hsmall

/-- The number that is read is the one that the numeral writes. -/
theorem nat?_eq_some_iff {cs : List Char} {n : Nat} : nat? cs = some n ↔ Writes cs n := by
  constructor
  · intro h
    unfold nat? at h
    split at h
    · exact .hexadecimal (digits?_eq_some_iff.1 h)
    · exact .binary (digits?_eq_some_iff.1 h)
    · exact .decimal (digits?_eq_some_iff.1 h)
  · intro h
    cases h with
    | hexadecimal h => exact digits?_eq_some_iff.2 h
    | binary h => exact digits?_eq_some_iff.2 h
    | decimal h =>
      unfold nat?
      split
      · -- neither marker is a decimal digit
        have hmarker := digitIn?_of_isDigits h (c := 'x') (by simp)
        cases hmarker
      · have hmarker := digitIn?_of_isDigits h (c := 'b') (by simp)
        cases hmarker
      · exact digits?_eq_some_iff.2 h

/-- The word that is read is the number that the numeral writes. -/
theorem value?_eq_some_iff {cs : List Char} {v : UInt16} :
    value? cs = some v ↔ Writes cs v.toNat := by
  rw [value?, Option.bind_eq_some_iff]
  constructor
  · rintro ⟨n, hn, hv⟩
    unfold word? at hv
    split at hv
    · rename_i hlt
      cases hv
      rwa [nat?_eq_some_iff, ← UInt16.toNat_ofNat_of_lt' hlt] at hn
    · cases hv
  · intro h
    have hlt : v.toNat < 65536 := v.toNat_lt
    exact ⟨v.toNat, nat?_eq_some_iff.2 h, by simp [word?, hlt]⟩

theorem value?_eq_none_iff {cs : List Char} :
    value? cs = none ↔ ∀ v : UInt16, ¬ Writes cs v.toNat := by
  rw [Option.eq_none_iff_forall_ne_some]
  exact forall_congr' fun v => not_congr value?_eq_some_iff

end Numeral

/-! ### Places of a scan -/

namespace Scan

/-- A scan of the first text comes to the second one, at its position, after these tokens. -/
inductive Reaches : Position → List Char → List Token → Position → List Char → Prop
  | here (pos : Position) (text : List Char) : Reaches pos text [] pos text
  | next {pos pos' : Position} {c : Char} {cs rest : List Char} {piece : Piece}
    {tokens : List Token} (hpiece : nextPiece c cs = .ok piece)
    (h : Reaches (pos.after piece.lexeme) piece.rest tokens pos' rest) :
    Reaches pos (c :: cs) ((piece.token? pos).toList ++ tokens) pos' rest

/-- The outcome of a scan is decided at each place that it comes to. -/
theorem Reaches.scan_eq {pos pos' : Position} {text rest : List Char} {tokens : List Token}
    (h : Reaches pos text tokens pos' rest) :
    scan pos text = (scan pos' rest).map (tokens ++ ·) := by
  induction h with
  | here pos text => cases scan pos text <;> simp [Except.map]
  | next hpiece h ih =>
    rw [scan_of_ok hpiece, ih]
    cases scan _ _ <;> simp [Except.map]

variable {c : Char} {cs run rest : List Char} {pos : Position}

/-- From a digit on the longest run is the text of the numeral. -/
theorem numeralText_eq (hc : c.isDigit = true) (h : Numeral.IsLongestRun run rest (c :: cs)) :
    numeralText c cs = run ∧ cs.dropWhile Numeral.isNumeralChar = rest := by
  obtain ⟨happend, hin, hends⟩ := h
  cases run with
  | nil =>
    obtain rfl : rest = c :: cs := happend
    exact absurd (Numeral.isNumeralChar_iff.1 (isNumeralChar_of_isDigit hc)) (hends c rfl)
  | cons d run =>
    obtain ⟨rfl, rfl⟩ : d = c ∧ run ++ rest = cs := by simpa using happend
    have hrun : ∀ e ∈ run, Numeral.isNumeralChar e = true :=
      fun e he => Numeral.isNumeralChar_iff.2 (hin e (List.mem_cons_of_mem _ he))
    have hrest : StopsAt Numeral.isNumeralChar rest := by
      intro e he
      rw [Bool.eq_false_iff]
      exact mt Numeral.isNumeralChar_iff.1 (hends e he)
    exact ⟨by rw [numeralText, takeWhile_append_of_stopsAt hrun hrest],
      dropWhile_append_of_stopsAt hrun hrest⟩

/-- A run that writes a word is cut off as that number. -/
theorem nextPiece_of_writes {v : UInt16} (hc : c.isDigit = true)
    (hrun : Numeral.IsLongestRun run rest (c :: cs)) (h : Numeral.Writes run v.toNat) :
    nextPiece c cs = .ok ⟨some (.number v, run), run, rest⟩ := by
  obtain ⟨htext, hrest⟩ := numeralText_eq hc hrun
  rw [nextPiece_of_isDigit hc, numeral, htext, hrest, Numeral.value?_eq_some_iff.2 h]

/-- A run that writes no word is refused. -/
theorem nextPiece_of_not_writes (hc : c.isDigit = true)
    (hrun : Numeral.IsLongestRun run rest (c :: cs))
    (h : ∀ v : UInt16, ¬ Numeral.Writes run v.toNat) :
    nextPiece c cs = .error (.badNumber (String.ofList run)) := by
  obtain ⟨htext, hrest⟩ := numeralText_eq hc hrun
  rw [nextPiece_of_isDigit hc, numeral, htext, Numeral.value?_eq_none_iff.2 h]

/-- A token on the way belongs to the first piece, or to a later one. -/
theorem Reaches.exists_piece {pos' : Position} {t : Token}
    (h : Reaches pos (c :: cs) [t] pos' rest) : ∃ piece tokens, nextPiece c cs = .ok piece ∧
      [t] = (piece.token? pos).toList ++ tokens := by
  generalize htokens : [t] = tokens at h
  cases h with
  | here => cases htokens
  | next hpiece h => exact ⟨_, _, hpiece, rfl⟩

/-- From a digit on the scan comes behind the longest run with a number exactly if the run writes
that number. -/
theorem reaches_number_iff {v : UInt16} (hc : c.isDigit = true)
    (hrun : Numeral.IsLongestRun run rest (c :: cs)) :
    Reaches pos (c :: cs) [⟨.number v, String.ofList run, pos⟩] (pos.after run) rest ↔
      Numeral.Writes run v.toNat := by
  constructor
  · intro h
    obtain ⟨piece, later, hpiece, htokens⟩ := h.exists_piece
    by_cases hwrites : ∃ v' : UInt16, Numeral.Writes run v'.toNat
    · -- the run is a number, so it is the token that was made
      obtain ⟨v', hv'⟩ := hwrites
      rw [nextPiece_of_writes hc hrun hv'] at hpiece
      cases hpiece
      cases htokens
      exact hv'
    · rw [nextPiece_of_not_writes hc hrun (not_exists.1 hwrites)] at hpiece
      cases hpiece
  · intro h
    exact .next (nextPiece_of_writes hc hrun h) (.here _ _)

end Scan

/-- Wherever the scan of a source meets a digit, the longest run of hexadecimal digits and `x` from
there decides. If it is `0x` with hexadecimal digits, `0b` with binary digits, or decimal digits,
and writes a number of one word, that number is the next token, with the run as its text. Else the
source is refused at the digit, for this run. -/
theorem Token.ofSource_numeral {file source : String} {tokens : List Token} {pos : Position}
    {c : Char} {cs run rest : List Char}
    (hplace : Scan.Reaches (.start file) source.toList tokens pos (c :: cs))
    (hc : c.isDigit = true) (hrun : Numeral.IsLongestRun run rest (c :: cs)) :
    (∀ v : UInt16,
      Scan.Reaches pos (c :: cs) [⟨.number v, String.ofList run, pos⟩] (pos.after run) rest ↔
        Numeral.Writes run v.toNat) ∧
    (∀ v : UInt16, Numeral.Writes run v.toNat →
      Token.ofSource file source = (Scan.scan (pos.after run) rest).map
        (tokens ++ ⟨.number v, String.ofList run, pos⟩ :: ·)) ∧
    ((∀ v : UInt16, ¬ Numeral.Writes run v.toNat) →
      Token.ofSource file source = .error ⟨pos, .badNumber (String.ofList run)⟩) := by
  refine ⟨fun v => Scan.reaches_number_iff hc hrun, fun v h => ?_, fun h => ?_⟩
  · rw [Token.ofSource, hplace.scan_eq, ((Scan.reaches_number_iff hc hrun).2 h).scan_eq]
    cases Scan.scan (pos.after run) rest <;> simp [Except.map]
  · rw [Token.ofSource, hplace.scan_eq, Scan.scan_of_error (Scan.nextPiece_of_not_writes hc hrun h)]
    rfl

/-- A binary number behind a word and a mark, and one behind them that is too large by one. -/
theorem Token.ofSource_numeral_behind_mark :
    let before : List Token :=
      [⟨.identifier, "x", ⟨"a.c", 1, 1⟩⟩, ⟨.mark .equal, "=", ⟨"a.c", 1, 2⟩⟩]
    let place : Position := ⟨"a.c", 1, 3⟩
    (Scan.Reaches (.start "a.c") "x=0b0101;".toList before place "0b0101;".toList ∧
      Numeral.IsLongestRun "0b0101".toList ";".toList "0b0101;".toList ∧
      Numeral.Writes "0b0101".toList 5 ∧
      Token.ofSource "a.c" "x=0b0101;" = .ok (before ++
        [⟨.number 5, "0b0101", place⟩, ⟨.mark .semicolon, ";", ⟨"a.c", 1, 9⟩⟩])) ∧
    Scan.Reaches (.start "a.c") "x=65536".toList before place "65536".toList ∧
      Numeral.IsLongestRun "65536".toList [] "65536".toList ∧
      Token.ofSource "a.c" "x=65536" = .error ⟨place, .badNumber "65536"⟩ := by
  intro before place
  -- the word and the mark are cut off in front of any digits
  have hword : ∀ cs, Scan.nextPiece 'x' ('=' :: cs) =
      .ok ⟨some (.identifier, ['x']), ['x'], '=' :: cs⟩ := fun _ => rfl
  have hmark : ∀ cs, Scan.nextPiece '=' ('0' :: cs) =
      .ok ⟨some (.mark .equal, ['=']), ['='], '0' :: cs⟩ := fun _ => rfl
  have hmark' : ∀ cs, Scan.nextPiece '=' ('6' :: cs) =
      .ok ⟨some (.mark .equal, ['=']), ['='], '6' :: cs⟩ := fun _ => rfl
  have hplace : Scan.Reaches (.start "a.c") "x=0b0101;".toList before place "0b0101;".toList :=
    .next (hword _) (.next (hmark _) (.here _ _))
  have hrun : Numeral.IsLongestRun "0b0101".toList ";".toList "0b0101;".toList :=
    Numeral.isLongestRun_takeWhile "0b0101;".toList
  have hwrites : Numeral.Writes "0b0101".toList 5 := Numeral.nat?_eq_some_iff.1 (by decide)
  have hplace' : Scan.Reaches (.start "a.c") "x=65536".toList before place "65536".toList :=
    .next (hword _) (.next (hmark' _) (.here _ _))
  have hrun' : Numeral.IsLongestRun "65536".toList [] "65536".toList :=
    Numeral.isLongestRun_takeWhile "65536".toList
  refine ⟨⟨hplace, hrun, hwrites, ?_⟩, hplace', hrun', ?_⟩
  · have hnumber := (Token.ofSource_numeral hplace (by decide) hrun).2.1 5 hwrites
    rw [hnumber]
    decide +kernel
  · exact (Token.ofSource_numeral hplace' (by decide) hrun').2.2
      (Numeral.value?_eq_none_iff.1 (by decide))

end WordC
