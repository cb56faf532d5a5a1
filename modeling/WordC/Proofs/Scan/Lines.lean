import WordC.Proofs.Scan.Layout

/-!
# A source line by line

No piece goes on behind the end of its line, so a source can be cut at any line feed. The tokens of
the whole are those of the part in front, then those of the part behind, further down in the file.

* `nextPiece_append_newline`: what a text begins with does not depend on what stands behind a line
  feed, nor on there being one;
* `scan_append_newline`: the scan of the part in front, then that of the part behind;
* `scan_down`: a text scanned further down has the same tokens, or the same fault, further down.
-/

namespace WordC

/-! ### Further down -/

/-- The place some rows further down. -/
def Position.down (k : Nat) (p : Position) : Position := { p with row := p.row + k }

/-- The token some rows further down. -/
def Token.down (k : Nat) (t : Token) : Token := { t with pos := t.pos.down k }

/-- The diagnostic for a fault some rows further down. -/
def Diagnostic.down (k : Nat) (d : Diagnostic) : Diagnostic := { d with pos := d.pos.down k }

theorem Position.advance_down (k : Nat) (p : Position) (c : Char) :
    (p.down k).advance c = (p.advance c).down k := by
  by_cases hc : c = '\n'
  · simp [advance, down, hc, Nat.add_right_comm]
  · simp [advance, down, hc]

theorem Position.after_down (k : Nat) (p : Position) (cs : List Char) :
    (p.down k).after cs = (p.after cs).down k := by
  induction cs generalizing p with
  | nil => rfl
  | cons c cs ih => rw [after_cons, after_cons, advance_down, ih]

/-- Behind a line feed there is a first column again. -/
theorem Position.after_newline (file : String) (cs : List Char) :
    (start file).after (cs ++ ['\n']) = (start file).down (1 + cs.count '\n') := by
  rw [after_append, after_start]
  simp [advance, behind, start, down, Nat.add_comm]

theorem Token.make_down (k : Nat) (kind : Kind) (text : String) (pos : Position) :
    make kind text (pos.down k) = (make kind text pos).down k := by
  cases kind <;> rfl

namespace Scan
open Text

variable {c : Char} {cs : List Char} {pos : Position}

/-! ### One piece after the other -/

theorem scan_of_error {cause : Cause} (h : nextPiece c cs = .error cause) :
    scan pos (c :: cs) = .error ⟨pos, cause⟩ := by
  rw [scan]
  split
  · rename_i cause' herror
    rw [h] at herror
    cases herror
    rfl
  · rename_i piece hok
    rw [h] at hok
    cases hok

theorem scan_of_ok {piece : Piece} (h : nextPiece c cs = .ok piece) :
    scan pos (c :: cs) =
      (scan (pos.after piece.lexeme) piece.rest).map ((piece.token? pos).toList ++ ·) := by
  rw [scan]
  split
  · rename_i cause herror
    rw [h] at herror
    cases herror
  · rename_i piece' hok
    rw [h] at hok
    cases hok
    cases scan (pos.after piece.lexeme) piece.rest <;> rfl

/-- The tokens or the fault of a text that begins some rows further down. -/
def lower (k : Nat) : Except Diagnostic (List Token) → Except Diagnostic (List Token)
  | .ok tokens => .ok (tokens.map (Token.down k))
  | .error d => .error (d.down k)

theorem Piece.token?_down (piece : Piece) (k : Nat) (pos : Position) :
    (piece.token? (pos.down k)).toList = (piece.token? pos).toList.map (Token.down k) := by
  unfold token?
  cases piece.content with
  | none => rfl
  | some content => simp [Token.make_down]

/-- What is found in a text depends on where it begins only in its positions. -/
theorem scan_down (k : Nat) : ∀ (cs : List Char) (pos : Position),
    scan (pos.down k) cs = lower k (scan pos cs)
  | [], pos => by
    rw [scan, scan]
    rfl
  | c :: cs, pos => by
    cases hpiece : nextPiece c cs with
    | error cause =>
      rw [scan_of_error hpiece, scan_of_error hpiece]
      rfl
    | ok piece =>
      have hrest := scan_down k piece.rest (pos.after piece.lexeme)
      rw [scan_of_ok hpiece, scan_of_ok hpiece, Position.after_down, hrest, Piece.token?_down]
      cases scan (pos.after piece.lexeme) piece.rest with
      | error d => rfl
      | ok tokens => simp [lower, Except.map]
termination_by cs => cs.length
decreasing_by exact length_rest_lt hpiece

/-! ### The end of a line -/

/-- The piece with more text behind what it leaves. -/
def Piece.before (more : List Char) (piece : Piece) : Piece :=
  { piece with rest := piece.rest ++ more }

section Runs

variable {p : Char → Bool} {stop : Char}

theorem takeWhile_append_stop (h : p stop = false) (cs more : List Char) :
    (cs ++ stop :: more).takeWhile p = cs.takeWhile p := by
  induction cs with
  | nil => simp [h]
  | cons c cs ih =>
    rw [List.cons_append, List.takeWhile_cons, List.takeWhile_cons, ih]

theorem dropWhile_append_stop (h : p stop = false) (cs more : List Char) :
    (cs ++ stop :: more).dropWhile p = cs.dropWhile p ++ stop :: more := by
  induction cs with
  | nil => simp [h]
  | cons c cs ih =>
    rw [List.cons_append, List.dropWhile_cons, List.dropWhile_cons, ih]
    split <;> rfl

end Runs

variable (c cs) (more : List Char)

theorem skipLine_append_newline :
    skipLine c (cs ++ '\n' :: more) = (skipLine c cs).before ('\n' :: more) := by
  have hstop : inLine '\n' = false := by decide
  simp only [skipLine, takeWhile_append_stop hstop, dropWhile_append_stop hstop, Piece.before]

theorem word_append_newline :
    word c (cs ++ '\n' :: more) = (word c cs).before ('\n' :: more) := by
  have hstop : isWordChar '\n' = false := by decide
  simp only [word, takeWhile_append_stop hstop, dropWhile_append_stop hstop, Piece.before]

theorem numeral_append_newline :
    numeral c (cs ++ '\n' :: more) = (numeral c cs).map (Piece.before ('\n' :: more)) := by
  have hstop : Numeral.isNumeralChar '\n' = false := by decide
  unfold numeral
  simp only [numeralText, takeWhile_append_stop hstop, dropWhile_append_stop hstop]
  cases Numeral.value? (c :: cs.takeWhile Numeral.isNumeralChar) <;> rfl

/-- A literal that is open at the end of the text is open at the end of the line. -/
theorem quoted_append_newline (quote : Quote) :
    quoted quote (cs ++ '\n' :: more) =
      (quoted quote cs).map fun found => (found.1, found.2 ++ '\n' :: more) := by
  have hstop : inQuotes quote '\n' = false := by cases quote <;> decide
  have hmark : '\n' ≠ quote.mark := by cases quote <;> decide
  unfold quoted
  rw [takeWhile_append_stop hstop, dropWhile_append_stop hstop]
  cases cs.dropWhile (inQuotes quote) with
  | nil => simp [hmark, Except.map]
  | cons d rest =>
    by_cases hd : d = quote.mark
    · simp [hd, Except.map]
    · simp [hd, Except.map]

theorem stringLiteral_append_newline :
    stringLiteral (cs ++ '\n' :: more) = (stringLiteral cs).map (Piece.before ('\n' :: more)) := by
  unfold stringLiteral
  rw [quoted_append_newline]
  cases quoted .string cs <;> rfl

theorem characterLiteral_append_newline :
    characterLiteral (cs ++ '\n' :: more) =
      (characterLiteral cs).map (Piece.before ('\n' :: more)) := by
  unfold characterLiteral
  rw [quoted_append_newline]
  cases quoted .character cs with
  | error cause => rfl
  | ok found =>
    simp only [Except.map]
    cases characterCode? found.1 <;> rfl

theorem nextWord_append_newline :
    nextWord c (cs ++ '\n' :: more) = (nextWord c cs).map (Piece.before ('\n' :: more)) := by
  unfold nextWord
  rw [word_append_newline, stringLiteral_append_newline, characterLiteral_append_newline,
    numeral_append_newline]
  repeat' split
  all_goals rfl

/-- No mark has a line feed in it. -/
theorem pairMark?_append_newline :
    pairMark? c (cs ++ '\n' :: more) =
      (pairMark? c cs).map fun found => (found.1, found.2.1, found.2.2 ++ '\n' :: more) := by
  cases cs with
  | nil =>
    have hnone : Mark.ofPair? c '\n' = none := by
      unfold Mark.ofPair?
      split <;> simp_all
    simp [pairMark?, hnone]
  | cons d rest =>
    simp only [List.cons_append, pairMark?]
    cases Mark.ofPair? c d <;> rfl

theorem startsSkip_append_newline : startsSkip c (cs ++ '\n' :: more) = startsSkip c cs := by
  cases cs with
  | nil => simp [startsSkip]
  | cons d rest => rfl

/-- What a text begins with is the same with a line feed and more behind it. -/
theorem nextPiece_append_newline :
    nextPiece c (cs ++ '\n' :: more) = (nextPiece c cs).map (Piece.before ('\n' :: more)) := by
  unfold nextPiece
  rw [pairMark?_append_newline, startsSkip_append_newline, skipLine_append_newline,
    nextWord_append_newline]
  cases pairMark? c cs with
  | some found => rfl
  | none =>
    simp only [Option.map_none]
    split
    · rfl
    · cases Mark.ofChar? c <;> rfl

/-- A line feed is a piece of its own. -/
theorem nextPiece_newline : nextPiece '\n' more = .ok ⟨none, ['\n'], more⟩ := by
  have hpair : pairMark? '\n' more = none := by
    cases more with
    | nil => rfl
    | cons d rest => simp [pairMark?, Mark.ofPair?]
  simp [nextPiece, hpair, startsSkip, Mark.ofChar?, nextWord, isBlank_newline]

/-- A text is scanned up to a line feed, and then from there. -/
theorem scan_append_newline (more : List Char) : ∀ (cs : List Char) (pos : Position),
    scan pos (cs ++ '\n' :: more) =
      (scan pos cs).bind fun tokens =>
        (scan (pos.after (cs ++ ['\n'])) more).map (tokens ++ ·)
  | [], pos => by
    rw [List.nil_append, scan_of_ok (nextPiece_newline more), scan]
    rfl
  | c :: cs, pos => by
    have hwhole := nextPiece_append_newline c cs more
    cases hpiece : nextPiece c cs with
    | error cause =>
      rw [hpiece] at hwhole
      rw [List.cons_append, scan_of_error hpiece, scan_of_error hwhole]
      rfl
    | ok piece =>
      rw [hpiece] at hwhole
      have hrest := scan_append_newline more piece.rest (pos.after piece.lexeme)
      have hplace : (pos.after piece.lexeme).after (piece.rest ++ ['\n']) =
          pos.after (c :: cs ++ ['\n']) := by
        rw [← Position.after_append, ← List.append_assoc, append_of_nextPiece hpiece]
      rw [List.cons_append, scan_of_ok hpiece, scan_of_ok hwhole]
      simp only [Piece.before, hrest, hplace]
      cases scan (pos.after piece.lexeme) piece.rest with
      | error d => rfl
      | ok tokens =>
        -- both sides scan the part behind, and differ in where the token in front is put
        simp only [Except.bind, Except.map, List.cons_append]
        cases scan (pos.after (c :: (cs ++ ['\n']))) more with
        | error d => rfl
        | ok others => simp [Piece.token?]
termination_by cs => cs.length
decreasing_by exact length_rest_lt hpiece

end Scan

/-- A line feed is a hard boundary. What stands in front of it is scanned as if nothing followed; a
fault there is the fault of the whole. Else what stands behind is scanned as a source of its own, as
many rows further down as the part in front has lines. -/
theorem Token.ofSource_append_newline (file front back : String) :
    let k := 1 + front.toList.count '\n'
    ofSource file (front ++ "\n" ++ back) =
      match ofSource file front, ofSource file back with
      | .ok tokens, .ok others => .ok (tokens ++ others.map (Token.down k))
      | .ok _, .error d => .error (d.down k)
      | .error d, _ => .error d := by
  intro k
  have hchars : (front ++ "\n" ++ back).toList = front.toList ++ '\n' :: back.toList := by simp
  simp only [ofSource]
  rw [hchars, Scan.scan_append_newline, Position.after_newline, Scan.scan_down]
  cases Scan.scan (.start file) front.toList with
  | error d => rfl
  | ok tokens =>
    cases Scan.scan (.start file) back.toList with
    | error d => rfl
    | ok others => rfl

/-- A comment and a slash end with their lines, and so does a literal that is not closed. -/
example :
    Token.ofSource "a.c" "x // \"\n/\n/ 'y" = .error ⟨⟨"a.c", 3, 3⟩, .unclosed .character⟩ ∧
    (Token.ofSource "a.c" "x // \"\n/\n/").map (List.map Token.pos) =
      .ok [⟨"a.c", 1, 1⟩, ⟨"a.c", 2, 1⟩, ⟨"a.c", 3, 1⟩] := by
  decide +kernel

end WordC
