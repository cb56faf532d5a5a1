import WordC.Proofs.Printer.Words
import WordC.Proofs.Scan.Lines

/-!
# Writing tokens out again

A text is cut into pieces in one way only: if it begins with a piece, that is the piece cut off
(`nextPiece_of_isPiece`). So a layout of a source decides its tokens (`scan_of_layout`), and tokens
can be written out with any layout. With one blank between neighbours no token goes on into the
next one, and scanning gives the tokens back (`Token.ofSource_respaced`).
-/

namespace WordC
open Text

/-! ### The first character -/

namespace Mark

/-- Marks are made of other characters than words and blanks. -/
theorem of_ofChar? {c : Char} {m : Mark} (h : ofChar? c = some m) :
    Scan.isWordChar c = false ∧ isBlank c = false := by
  unfold ofChar? at h
  split at h
  case h_21 => cases h
  all_goals decide

/-- The first of two characters that are a mark is a mark itself. -/
theorem ofPair?_eq_none {a b : Char} (h : ofChar? a = none) : ofPair? a b = none := by
  unfold ofPair?
  split
  case h_7 => rfl
  all_goals cases h

/-- A mark has one character or two. -/
theorem lexeme_cases (m : Mark) :
    (∃ a, m.lexeme.toList = [a] ∧ ofChar? a = some m) ∨
    (∃ a b, m.lexeme.toList = [a, b] ∧ ofPair? a b = some m) := by
  cases m <;> simp [lexeme, ofChar?, ofPair?]

/-- What makes a mark of two characters, or two slashes, completes the first of them. -/
theorem completion?_of_isPair {a b : Char} {m : Mark} (h : ofChar? a = some m)
    (hpair : (ofPair? a b).isSome = true ∨ a = '/' ∧ b = '/') : m.completion? = some b := by
  rcases hpair with hpair | ⟨rfl, rfl⟩
  · unfold ofPair? at hpair
    split at hpair
    case h_7 => cases hpair
    all_goals
      cases h
      rfl
  · cases h
    rfl

end Mark

namespace Scan

variable {c : Char} {cs run text rest : List Char}

theorem isBlank_of_isWordChar (h : isWordChar c = true) : isBlank c = false := by
  rw [Bool.eq_false_iff]
  intro hblank
  have houter : c.toNat ≤ 32 ∨ 133 ≤ c.toNat := by
    simp only [isBlank, blankRanges, List.any_cons, List.any_nil, Bool.or_eq_true,
      Bool.and_eq_true, decide_eq_true_eq, Bool.false_eq_true, or_false] at hblank
    omega
  -- letters, digits and the underscore lie between the two groups of blanks
  have hinner : 48 ≤ c.toNat ∧ c.toNat ≤ 122 := by
    simp only [isWordChar, Bool.or_eq_true, decide_eq_true_eq] at h
    rcases h with h | rfl
    · simp only [Char.isAlphanum, Char.isAlpha, Char.isUpper, Char.isLower, Char.isDigit,
        Bool.or_eq_true, Bool.and_eq_true, decide_eq_true_eq, UInt32.le_iff_toNat_le,
        ge_iff_le] at h
      change ((65 ≤ c.toNat ∧ c.toNat ≤ 90) ∨ (97 ≤ c.toNat ∧ c.toNat ≤ 122)) ∨
        (48 ≤ c.toNat ∧ c.toNat ≤ 57) at h
      omega
    · decide
  omega

theorem isWordChar_of_isAlpha (h : c.isAlpha = true) : isWordChar c = true := by
  simp [isWordChar, Char.isAlphanum, h]

/-- A text that does not begin with a mark or a directive begins with a blank, a word or a
literal. -/
theorem nextPiece_eq_nextWord (hmark : Mark.ofChar? c = none) (hc : c ≠ '#') :
    nextPiece c cs = nextWord c cs := by
  have hpair : pairMark? c cs = none := by
    cases cs with
    | nil => rfl
    | cons d rest => simp [pairMark?, Mark.ofPair?_eq_none hmark]
  have hslash : c ≠ '/' := by
    rintro rfl
    cases hmark
  simp [nextPiece, hpair, hmark, startsSkip, hc, hslash]

theorem nextPiece_of_isWordChar (h : isWordChar c = true) : nextPiece c cs = nextWord c cs := by
  apply nextPiece_eq_nextWord
  · rw [Option.eq_none_iff_forall_ne_some]
    intro m hm
    rw [(Mark.of_ofChar? hm).1] at h
    cases h
  · rintro rfl
    cases h

/-! ### Runs of characters -/

section Runs

variable {more : Char → Bool}

theorem takeWhile_append_of_stopsAt (hrun : ∀ c ∈ run, more c = true) (hrest : StopsAt more rest) :
    (run ++ rest).takeWhile more = run := by
  rw [List.takeWhile_append_of_pos hrun]
  cases rest with
  | nil => simp
  | cons d tail => simp [hrest d rfl]

theorem dropWhile_append_of_stopsAt (hrun : ∀ c ∈ run, more c = true) (hrest : StopsAt more rest) :
    (run ++ rest).dropWhile more = rest := by
  rw [List.dropWhile_append_of_pos hrun]
  cases rest with
  | nil => simp
  | cons d tail => simp [hrest d rfl]

end Runs

/-- A literal ends at the first quote. -/
theorem quoted_of_closed {quote : Quote} (htext : ∀ c ∈ text, inQuotes quote c = true) :
    quoted quote (text ++ quote.mark :: rest) = .ok (text, rest) := by
  have hstop : StopsAt (inQuotes quote) (quote.mark :: rest) := by
    intro c hc
    obtain rfl : quote.mark = c := by simpa using hc
    simp [inQuotes]
  simp [quoted, takeWhile_append_of_stopsAt htext hstop, dropWhile_append_of_stopsAt htext hstop]

/-! ### Pieces -/

/-- A mark is cut off where nothing completes it. -/
theorem nextPiece_mark {m : Mark} (hrest : ∀ c ∈ rest.head?, m.completion? ≠ some c)
    (htext : m.lexeme.toList ++ rest = c :: cs) :
    nextPiece c cs = .ok ⟨some (.mark m, m.lexeme.toList), m.lexeme.toList, rest⟩ := by
  rcases m.lexeme_cases with ⟨a, hlexeme, hm⟩ | ⟨a, b, hlexeme, hm⟩
  · rw [hlexeme] at htext ⊢
    obtain ⟨rfl, rfl⟩ : a = c ∧ rest = cs := by simpa using htext
    -- neither a longer mark nor a comment: it would complete this one
    have hopen : ∀ b ∈ rest.head?, ¬((Mark.ofPair? a b).isSome = true ∨ a = '/' ∧ b = '/') :=
      fun b hb hpair => hrest b hb (Mark.completion?_of_isPair hm hpair)
    have hpair : pairMark? a rest = none := by
      cases rest with
      | nil => rfl
      | cons b tail =>
        have hb := hopen b rfl
        simp only [not_or, Bool.not_eq_true, Option.isSome_eq_false_iff, Option.isNone_iff_eq_none]
          at hb
        simp [pairMark?, hb.1]
    have hskip : startsSkip a rest = false := by
      have hhash : a ≠ '#' := by
        rintro rfl
        cases hm
      cases rest with
      | nil => simp [startsSkip, hhash]
      | cons b tail =>
        have hb := hopen b rfl
        simp only [not_or] at hb
        simpa [startsSkip, hhash] using hb.2
    simp [nextPiece, hpair, hskip, hm]
  · rw [hlexeme] at htext ⊢
    obtain ⟨rfl, rfl⟩ : a = c ∧ b :: rest = cs := by simpa using htext
    simp [nextPiece, pairMark?, hm]

/-- A comment or a directive is cut off as a whole. -/
theorem nextPiece_line (h : IsSkipped run rest) (htext : run ++ rest = c :: cs) :
    nextPiece c cs = .ok ⟨none, run, rest⟩ := by
  obtain ⟨tail, rfl, hpair, hskip⟩ : ∃ tail, run = c :: tail ∧ pairMark? c cs = none ∧
      startsSkip c cs = true := by
    rcases h.begins with ⟨tail, rfl⟩ | ⟨tail, rfl⟩
    · obtain ⟨rfl, rfl⟩ : '/' = c ∧ '/' :: (tail ++ rest) = cs := by simpa using htext
      exact ⟨_, rfl, rfl, rfl⟩
    · obtain ⟨rfl, rfl⟩ : '#' = c ∧ tail ++ rest = cs := by simpa using htext
      refine ⟨_, rfl, ?_, rfl⟩
      cases tail ++ rest <;> simp [pairMark?, Mark.ofPair?]
  obtain rfl : tail ++ rest = cs := by simpa using htext
  have hinLine : ∀ d ∈ tail, inLine d = true := by
    intro d hd
    have hne : d ≠ '\n' := fun heq => h.inLine (heq ▸ List.mem_cons_of_mem c hd)
    simpa [inLine] using hne
  have hends : StopsAt inLine rest := fun d hd => by simp [inLine, h.ends d hd]
  simp [nextPiece, hpair, hskip, skipLine, takeWhile_append_of_stopsAt hinLine hends,
    dropWhile_append_of_stopsAt hinLine hends]

theorem nextPiece_blank (hc : isBlank c = true) : nextPiece c cs = .ok ⟨none, [c], cs⟩ := by
  rw [nextPiece_eq_nextWord, nextWord, if_pos hc]
  · rw [Option.eq_none_iff_forall_ne_some]
    intro m hm
    rw [(Mark.of_ofChar? hm).2] at hc
    cases hc
  · rintro rfl
    cases hc

theorem nextPiece_word (hc : c.isAlpha = true) (hrun : ∀ d ∈ run, isWordChar d = true)
    (hrest : StopsAt isWordChar rest) :
    nextPiece c (run ++ rest) = .ok ⟨some (.identifier, c :: run), c :: run, rest⟩ := by
  have hword := isWordChar_of_isAlpha hc
  rw [nextPiece_of_isWordChar hword]
  simp [nextWord, isBlank_of_isWordChar hword, hc, word, takeWhile_append_of_stopsAt hrun hrest,
    dropWhile_append_of_stopsAt hrun hrest]

/-- A digit begins a numeral. -/
theorem nextPiece_of_isDigit (hc : c.isDigit = true) : nextPiece c cs = numeral c cs := by
  have hword := isWordChar_of_isDigit hc
  have halpha : c.isAlpha = false := by
    rw [Bool.eq_false_iff]
    intro halpha
    rw [isDigit_of_isAlpha halpha] at hc
    cases hc
  have hquotes : c ≠ '"' ∧ c ≠ '\'' := by
    constructor <;> rintro rfl <;> cases hc
  rw [nextPiece_of_isWordChar hword]
  simp [nextWord, isBlank_of_isWordChar hword, halpha, hquotes, hc]

theorem nextPiece_number {value : UInt16} (hc : c.isDigit = true)
    (hrun : ∀ d ∈ run, Numeral.isNumeralChar d = true)
    (hvalue : Numeral.value? (c :: run) = some value)
    (hrest : StopsAt Numeral.isNumeralChar rest) :
    nextPiece c (run ++ rest) = .ok ⟨some (.number value, c :: run), c :: run, rest⟩ := by
  rw [nextPiece_of_isDigit hc]
  simp [numeral, numeralText, takeWhile_append_of_stopsAt hrun hrest,
    dropWhile_append_of_stopsAt hrun hrest, hvalue]

theorem nextPiece_string (htext : ∀ c ∈ text, inQuotes .string c = true) :
    nextPiece '"' (text ++ '"' :: rest) =
      .ok ⟨some (.text, text), withQuotes .string text, rest⟩ := by
  have hquoted : quoted .string (text ++ '"' :: rest) = .ok (text, rest) := quoted_of_closed htext
  have hblank : isBlank '"' = false := by decide
  have halpha : '"'.isAlpha = false := by decide
  rw [nextPiece_eq_nextWord rfl (by decide)]
  simp [nextWord, hblank, halpha, stringLiteral, hquoted]

theorem nextPiece_character {code : UInt16} (hc : inQuotes .character c = true)
    (hcode : Numeral.word? c.toNat = some code) :
    nextPiece '\'' (c :: '\'' :: rest) =
      .ok ⟨some (.character code, [c]), withQuotes .character [c], rest⟩ := by
  have hquoted : quoted .character ([c] ++ '\'' :: rest) = .ok ([c], rest) :=
    quoted_of_closed (by simpa using hc)
  have hblank : isBlank '\'' = false := by decide
  have halpha : '\''.isAlpha = false := by decide
  rw [nextPiece_eq_nextWord rfl (by decide)]
  rw [List.singleton_append] at hquoted
  simp [nextWord, hblank, halpha, characterLiteral, hquoted, characterCode?, hcode]

/-- A piece that a text begins with is the one cut off. -/
theorem nextPiece_of_isPiece {piece : Piece} (h : IsPiece piece)
    (htext : piece.lexeme ++ piece.rest = c :: cs) : nextPiece c cs = .ok piece := by
  cases h with
  | mark hrest => exact nextPiece_mark hrest htext
  | line hrun => exact nextPiece_line hrun htext
  | blank hc =>
    obtain ⟨rfl, rfl⟩ := List.cons.inj htext
    exact nextPiece_blank hc
  | @word text rest hname hrest =>
    obtain ⟨d, run, htoList, hd, hrun⟩ := isName_iff.1 hname
    rw [String.toList_ofList] at htoList
    subst htoList
    obtain ⟨rfl, rfl⟩ := List.cons.inj htext
    exact nextPiece_word hd hrun hrest
  | number hc hrun hvalue hrest =>
    obtain ⟨rfl, rfl⟩ := List.cons.inj htext
    exact nextPiece_number hc (fun d hd => hrun d (List.mem_cons_of_mem _ hd)) hvalue hrest
  | @string text rest hinside =>
    obtain ⟨rfl, rfl⟩ : '"' = c ∧ text ++ '"' :: rest = cs := by
      simpa [withQuotes, Quote.mark] using htext
    exact nextPiece_string hinside
  | @character d rest code hd hcode =>
    obtain ⟨rfl, rfl⟩ : '\'' = c ∧ d :: '\'' :: rest = cs := by
      simpa [withQuotes, Quote.mark] using htext
    exact nextPiece_character hd hcode

theorem IsPiece.lexeme_ne_nil {piece : Piece} (h : IsPiece piece) : piece.lexeme ≠ [] := by
  cases h with
  | mark hrest =>
    rename_i m rest
    rcases m.lexeme_cases with ⟨a, hlexeme, -⟩ | ⟨a, b, hlexeme, -⟩ <;> simp [hlexeme]
  | line hrun => rcases hrun.begins with ⟨tail, rfl⟩ | ⟨tail, rfl⟩ <;> simp
  | word hname =>
    obtain ⟨d, run, htext, -⟩ := isName_iff.1 hname
    rw [String.toList_ofList] at htext
    simp [htext]
  | blank | number | string | character => simp [withQuotes]

theorem scan_of_isPiece {piece : Piece} (h : IsPiece piece) (pos : Position) :
    scan pos (piece.lexeme ++ piece.rest) =
      (scan (pos.after piece.lexeme) piece.rest).map ((piece.token? pos).toList ++ ·) := by
  obtain ⟨c, cs, htext⟩ : ∃ c cs, piece.lexeme ++ piece.rest = c :: cs :=
    List.exists_cons_of_ne_nil (by simp [h.lexeme_ne_nil])
  rw [htext, scan_of_ok (nextPiece_of_isPiece h htext)]

/-- A gap is skipped. -/
theorem scan_gap {gap after : List Char} (h : IsGap gap after) (pos : Position) :
    scan pos (gap ++ after) = scan (pos.after gap) after := by
  have hnone (result : Except Diagnostic (List Token)) : result.map ([] ++ ·) = result := by
    cases result <;> rfl
  induction h generalizing pos with
  | nil => rfl
  | @blank c gap after hc _ ih =>
    have hpiece := scan_of_isPiece (@IsPiece.blank c (gap ++ after) hc) pos
    exact (hpiece.trans (hnone _)).trans (ih (pos.advance c))
  | @line run gap after hrun _ ih =>
    have hpiece := scan_of_isPiece (.line hrun) pos
    rw [List.append_assoc, Position.after_append]
    exact (hpiece.trans (hnone _)).trans (ih (pos.after run))

end Scan

namespace Token

/-- The token at another position. -/
def moveTo (t : Token) (pos : Position) : Token := { t with pos := pos }

theorem isName_lexeme (k : Keyword) : isName k.lexeme = true := by cases k <;> decide

theorem ofLexeme?_lexeme (k : Keyword) : Keyword.ofLexeme? k.lexeme = some k := by
  cases k <;> decide

/-- A token is a piece in front of any text that it does not go on with. -/
theorem isPiece_of_isSpelled {t : Token} {after : List Char} (h : t.IsSpelled)
    (hends : ∀ c ∈ after.head?, t.goesOnWith c = false) :
    ∃ kind, Scan.IsPiece ⟨some (kind, t.text.toList), t.lexeme, after⟩ ∧
      ∀ pos, make kind t.text pos = t.moveTo pos := by
  obtain ⟨kind, text, pos⟩ := t
  cases kind with
  | mark m =>
    obtain rfl : text = m.lexeme := h
    exact ⟨.mark m, .mark fun c hc => by simpa [goesOnWith] using hends c hc, fun _ => rfl⟩
  | keyword k =>
    obtain rfl : text = k.lexeme := h
    refine ⟨.identifier, .word ?_ hends, fun pos => ?_⟩
    · rw [String.ofList_toList]
      exact isName_lexeme k
    · simp [make, ofLexeme?_lexeme, moveTo]
  | identifier =>
    obtain ⟨hname, hword⟩ : isName text = true ∧ Keyword.ofLexeme? text = none := h
    refine ⟨.identifier, .word ?_ hends, fun pos => ?_⟩
    · rwa [String.ofList_toList]
    · simp [make, hword, moveTo]
  | number value =>
    obtain ⟨⟨c, run, htext, hc⟩, hrun, hvalue⟩ := h
    refine ⟨.number value, ?_, fun _ => rfl⟩
    change Scan.IsPiece ⟨some (.number value, text.toList), text.toList, after⟩
    simp only [htext] at hrun hvalue ⊢
    exact .number hc hrun hvalue hends
  | text => exact ⟨.text, .string h, fun _ => rfl⟩
  | character code =>
    obtain ⟨c, htext, hc, hcode⟩ := h
    refine ⟨.character code, ?_, fun _ => rfl⟩
    change Scan.IsPiece
      ⟨some (.character code, text.toList), Scan.withQuotes .character text.toList, after⟩
    simp only at htext
    rw [htext]
    exact .character hc hcode

end Token

namespace Scan

/-- A layout decides the tokens of a text. -/
theorem scan_of_layout {file : String} {before text : List Char} {tokens : List Token}
    (h : Layout file before text tokens) :
    scan (Position.behind file before) text = .ok tokens := by
  induction h with
  | @nil before gap hgap =>
    have hscan := scan_gap hgap (Position.behind file before)
    rw [List.append_nil] at hscan
    rw [hscan, scan]
  | @cons before gap after t tokens hgap hspelled hpos hends _ ih =>
    obtain ⟨kind, hpiece, hmake⟩ := Token.isPiece_of_isSpelled hspelled hends
    have hscan := scan_of_isPiece hpiece (Position.behind file (before ++ gap))
    have htoken : Token.make kind t.text (Position.behind file (before ++ gap)) = t := by
      rw [hmake, ← hpos]
      rfl
    rw [scan_gap hgap, Position.after_behind, hscan, Position.after_behind, ih]
    simp [Piece.token?, htoken, Except.map]

end Scan

namespace Token

/-- The tokens of a list with one blank between neighbours. -/
def respaced (tokens : List Token) : String :=
  " ".intercalate (tokens.map fun t => String.ofList t.lexeme)

theorem toList_respaced (tokens : List Token) :
    (respaced tokens).toList = [' '].intercalate (tokens.map lexeme) := by
  simp [respaced, String.toList_intercalate, Function.comp_def]

/-- No token goes on with a blank. -/
theorem goesOnWith_space (t : Token) : t.goesOnWith ' ' = false := by
  unfold goesOnWith
  cases t.kind with
  | mark m => cases m <;> decide
  | identifier | keyword | number | text | character => rfl

/-- A spelled token in front of a layout, at its place and without a gap. -/
theorem layout_moveTo {t : Token} {file : String} {before after : List Char} {tokens : List Token}
    (ht : t.IsSpelled) (hends : ∀ c ∈ after.head?, t.goesOnWith c = false)
    (h : Scan.Layout file (before ++ t.lexeme) after tokens) :
    Scan.Layout file before (t.lexeme ++ after)
      (t.moveTo (Position.behind file before) :: tokens) := by
  let moved := t.moveTo (Position.behind file before)
  refine @Scan.Layout.cons file before [] after moved tokens .nil ht ?_ hends ?_
  · rw [List.append_nil]
    rfl
  · rwa [List.append_nil]

/-- Spelled tokens with one blank between neighbours are laid out as these tokens at new places. -/
theorem exists_layout_respaced (file : String) : ∀ (tokens : List Token) (before : List Char),
    (∀ t ∈ tokens, t.IsSpelled) → ∃ again, again.map spelling = tokens.map spelling ∧
      Scan.Layout file before ([' '].intercalate (tokens.map lexeme)) again
  | [], before, _ => ⟨[], rfl, .nil .nil⟩
  | [t], before, hspelled => by
    have hlayout : Scan.Layout file before (t.lexeme ++ []) _ :=
      layout_moveTo (hspelled t List.mem_cons_self) (fun c hc => nomatch hc) (.nil .nil)
    refine ⟨[t.moveTo (Position.behind file before)], rfl, ?_⟩
    simpa using hlayout
  | t :: u :: tokens, before, hspelled => by
    have hrest : ∀ t' ∈ u :: tokens, t'.IsSpelled :=
      fun t' ht' => hspelled t' (List.mem_cons_of_mem t ht')
    obtain ⟨again, hagain, hlayout⟩ :=
      exists_layout_respaced file (u :: tokens) (before ++ t.lexeme ++ [' ']) hrest
    have hends : ∀ c ∈ (' ' :: [' '].intercalate ((u :: tokens).map lexeme)).head?,
        t.goesOnWith c = false := by
      intro c hc
      obtain rfl : ' ' = c := by simpa using hc
      exact goesOnWith_space t
    have hwhole := layout_moveTo (hspelled t List.mem_cons_self) hends
      (hlayout.blank isBlank_space)
    refine ⟨t.moveTo (Position.behind file before) :: again, ?_, by simpa using hwhole⟩
    rw [List.map_cons, hagain]
    rfl

/-- Scanning keeps the tokens of a source that are written out with one blank between neighbours:
they have the same kinds, with the values of numbers and characters, and the same texts. -/
theorem ofSource_respaced {file source : String} {tokens : List Token}
    (h : ofSource file source = .ok tokens) (file' : String) :
    (ofSource file' (respaced tokens)).map (List.map spelling) = .ok (tokens.map spelling) := by
  have hspelled : ∀ t ∈ tokens, t.IsSpelled := by
    intro t ht
    obtain ⟨front, after, -, -, hspelled⟩ := (Scan.scan_layout source.toList [] h).exists_of_mem ht
    exact hspelled
  obtain ⟨again, hagain, hlayout⟩ := exists_layout_respaced file' tokens [] hspelled
  have hscan : Scan.scan (.start file') (respaced tokens).toList = .ok again := by
    rw [toList_respaced]
    exact Scan.scan_of_layout hlayout
  rw [ofSource, hscan, Except.map, hagain]

/-- Marks side by side, a comment marker and the other quote inside literals, and numbers of three
radices. -/
theorem ofSource_respaced_neighbours :
    let source := "if(a<=0x1F)//\n*p='\"'|0b11/7;\"// it's\""
    let tokens : List Token :=
      [⟨.keyword .ifWord, "if", ⟨"a.c", 1, 1⟩⟩, ⟨.mark .openParen, "(", ⟨"a.c", 1, 3⟩⟩,
       ⟨.identifier, "a", ⟨"a.c", 1, 4⟩⟩, ⟨.mark .lessEqual, "<=", ⟨"a.c", 1, 5⟩⟩,
       ⟨.number 31, "0x1F", ⟨"a.c", 1, 7⟩⟩, ⟨.mark .closeParen, ")", ⟨"a.c", 1, 11⟩⟩,
       ⟨.mark .star, "*", ⟨"a.c", 2, 1⟩⟩, ⟨.identifier, "p", ⟨"a.c", 2, 2⟩⟩,
       ⟨.mark .equal, "=", ⟨"a.c", 2, 3⟩⟩, ⟨.character 34, "\"", ⟨"a.c", 2, 4⟩⟩,
       ⟨.mark .bar, "|", ⟨"a.c", 2, 7⟩⟩, ⟨.number 3, "0b11", ⟨"a.c", 2, 8⟩⟩,
       ⟨.mark .slash, "/", ⟨"a.c", 2, 12⟩⟩, ⟨.number 7, "7", ⟨"a.c", 2, 13⟩⟩,
       ⟨.mark .semicolon, ";", ⟨"a.c", 2, 14⟩⟩, ⟨.text, "// it's", ⟨"a.c", 2, 15⟩⟩]
    ofSource "a.c" source = .ok tokens ∧
      respaced tokens = "if ( a <= 0x1F ) * p = '\"' | 0b11 / 7 ; \"// it's\"" ∧
      (ofSource "b.c" (respaced tokens)).map (List.map spelling) = .ok (tokens.map spelling) := by
  intro source tokens
  have h : ofSource "a.c" source = .ok tokens := by decide +kernel
  exact ⟨h, by decide +kernel, ofSource_respaced h "b.c"⟩

end Token

end WordC
