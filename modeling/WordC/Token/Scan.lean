import WordC.Diagnostic
import WordC.Text.Blank
import WordC.Token.Basic
import WordC.Token.Numeral

/-!
# Scanning a source

A source is cut into pieces from left to right. A piece is a token, or something skipped: a blank,
a comment from `//` or a directive from `#` up to the end of its line.

* `nextPiece` cuts one piece off a text that is not empty;
* `append_of_nextPiece`: nothing is lost, the piece and the rest make up the text;
* `scan` cuts the whole text, keeping count of the position.
-/

namespace WordC.Scan
open Text

/-- A piece cut off the front of a text, with what is left. -/
structure Piece where
  /-- Kind and text of the token, or `none` for what is skipped. -/
  content : Option (Token.Kind × List Char)
  lexeme : List Char
  rest : List Char

namespace Piece

/-- The token that a piece stands for at a position. -/
def token? (piece : Piece) (pos : Position) : Option Token :=
  piece.content.map fun (kind, text) => Token.make kind (String.ofList text) pos

end Piece

/-- Up to the end of the line. -/
def inLine (c : Char) : Bool := c ≠ '\n'

/-- The rest of an identifier: ASCII letters and digits, and underscores. -/
def isWordChar (c : Char) : Bool := c.isAlphanum || c = '_'

/-- Inside a literal: neither its quote nor the end of the line. -/
def inQuotes (quote : Quote) (c : Char) : Bool := c ≠ quote.mark && c ≠ '\n'

/-- A comment or a directive, which runs to the end of its line. -/
def skipLine (c : Char) (cs : List Char) : Piece :=
  ⟨none, c :: cs.takeWhile inLine, cs.dropWhile inLine⟩

/-- An identifier or keyword that begins with `c`. -/
def word (c : Char) (cs : List Char) : Piece :=
  ⟨some (.identifier, c :: cs.takeWhile isWordChar), c :: cs.takeWhile isWordChar,
   cs.dropWhile isWordChar⟩

/-- The longest run of numeral characters from `c` on. -/
def numeralText (c : Char) (cs : List Char) : List Char :=
  c :: cs.takeWhile Numeral.isNumeralChar

/-- A numeral that begins with `c`. -/
def numeral (c : Char) (cs : List Char) : Except Cause Piece :=
  match Numeral.value? (numeralText c cs) with
  | some value => .ok ⟨some (.number value, numeralText c cs), numeralText c cs,
      cs.dropWhile Numeral.isNumeralChar⟩
  | none => .error (.badNumber (String.ofList (numeralText c cs)))

/-- The text of a literal and what follows its closing quote; `cs` follows the opening one. -/
def quoted (quote : Quote) (cs : List Char) : Except Cause (List Char × List Char) :=
  match cs.dropWhile (inQuotes quote) with
  | [] => .error (.unclosed quote)
  | c :: rest =>
    if c = quote.mark then .ok (cs.takeWhile (inQuotes quote), rest) else .error (.unclosed quote)

/-- A literal with its quotes. -/
def withQuotes (quote : Quote) (text : List Char) : List Char :=
  quote.mark :: (text ++ [quote.mark])

/-- A string literal; `cs` follows the opening quote. -/
def stringLiteral (cs : List Char) : Except Cause Piece :=
  match quoted .string cs with
  | .error cause => .error cause
  | .ok (text, rest) => .ok ⟨some (.text, text), withQuotes .string text, rest⟩

/-- The code of a literal of one character that fits in a word. -/
def characterCode? : List Char → Option UInt16
  | [c] => Numeral.word? c.toNat
  | _ => none

/-- A character literal; `cs` follows the opening quote. -/
def characterLiteral (cs : List Char) : Except Cause Piece :=
  match quoted .character cs with
  | .error cause => .error cause
  | .ok (text, rest) =>
    match characterCode? text with
    | some code => .ok ⟨some (.character code, text), withQuotes .character text, rest⟩
    | none => .error (.badCharacter (String.ofList text))

/-- The mark of two characters that begins a text. -/
def pairMark? (c : Char) : List Char → Option (Mark × Char × List Char)
  | [] => none
  | d :: rest => (Mark.ofPair? c d).map fun m => (m, d, rest)

/-- Does a comment or a directive begin here? -/
def startsSkip (c : Char) (cs : List Char) : Bool :=
  c = '#' || (c = '/' && cs.head? = some '/')

/-- The pieces that do not begin with a mark. -/
def nextWord (c : Char) (cs : List Char) : Except Cause Piece :=
  if isBlank c then .ok ⟨none, [c], cs⟩
  else if c.isAlpha then .ok (word c cs)
  else if c = '"' then stringLiteral cs
  else if c = '\'' then characterLiteral cs
  else if c.isDigit then numeral c cs
  else .error (.strayCharacter c)

/-- The piece at the front of the text `c :: cs`. -/
def nextPiece (c : Char) (cs : List Char) : Except Cause Piece :=
  match pairMark? c cs with
  | some (m, d, rest) => .ok ⟨some (.mark m, [c, d]), [c, d], rest⟩
  | none =>
    if startsSkip c cs then .ok (skipLine c cs)
    else
      match Mark.ofChar? c with
      | some m => .ok ⟨some (.mark m, [c]), [c], cs⟩
      | none => nextWord c cs

/-! ### Nothing is lost -/

theorem append_of_quoted {quote : Quote} {cs text rest : List Char}
    (h : quoted quote cs = .ok (text, rest)) : text ++ quote.mark :: rest = cs := by
  unfold quoted at h
  split at h
  · cases h
  · rename_i c tail hd
    split at h
    · rename_i hc
      cases h
      have := List.takeWhile_append_dropWhile (p := inQuotes quote) (l := cs)
      rw [hd, hc] at this
      exact this
    · cases h

theorem append_of_nextWord {c : Char} {cs : List Char} {piece : Piece}
    (h : nextWord c cs = .ok piece) : piece.lexeme ++ piece.rest = c :: cs := by
  unfold nextWord at h
  split at h
  · cases h; rfl
  split at h
  · cases h; simp [word]
  split at h
  · rename_i hc
    unfold stringLiteral at h
    split at h
    · cases h
    · rename_i text rest hq
      cases h
      simp [withQuotes, hc, ← append_of_quoted hq, Quote.mark]
  split at h
  · rename_i hc
    unfold characterLiteral at h
    split at h
    · cases h
    · rename_i text rest hq
      split at h
      · cases h
        simp [withQuotes, hc, ← append_of_quoted hq, Quote.mark]
      · cases h
  split at h
  · unfold numeral at h
    split at h
    · cases h; simp [numeralText]
    · cases h
  · cases h

/-- The lexeme of a piece and the rest make up the text it was cut from. -/
theorem append_of_nextPiece {c : Char} {cs : List Char} {piece : Piece}
    (h : nextPiece c cs = .ok piece) : piece.lexeme ++ piece.rest = c :: cs := by
  unfold nextPiece at h
  split at h
  · rename_i m d rest hm
    cases h
    cases cs with
    | nil => simp [pairMark?] at hm
    | cons e tail =>
      simp only [pairMark?, Option.map_eq_some_iff, Prod.mk.injEq] at hm
      obtain ⟨_, _, _, rfl, rfl⟩ := hm
      rfl
  split at h
  · cases h; simp [skipLine]
  split at h
  · cases h; rfl
  · exact append_of_nextWord h

theorem lexeme_ne_nil_of_nextWord {c : Char} {cs : List Char} {piece : Piece}
    (h : nextWord c cs = .ok piece) : piece.lexeme ≠ [] := by
  unfold nextWord stringLiteral characterLiteral numeral at h
  repeat' split at h
  all_goals cases h
  all_goals simp [word, withQuotes, numeralText]

/-- A piece is never empty. -/
theorem lexeme_ne_nil_of_nextPiece {c : Char} {cs : List Char} {piece : Piece}
    (h : nextPiece c cs = .ok piece) : piece.lexeme ≠ [] := by
  unfold nextPiece at h
  split at h
  · cases h; simp
  split at h
  · cases h; simp [skipLine]
  split at h
  · cases h; simp
  · exact lexeme_ne_nil_of_nextWord h

theorem length_rest_lt {c : Char} {cs : List Char} {piece : Piece}
    (h : nextPiece c cs = .ok piece) : piece.rest.length < (c :: cs).length := by
  have := List.length_pos_iff.2 (lexeme_ne_nil_of_nextPiece h)
  rw [← append_of_nextPiece h, List.length_append]
  omega

/-! ### The whole text -/

/-- The tokens of a text that begins at a position. -/
def scan (pos : Position) : List Char → Except Diagnostic (List Token)
  | [] => .ok []
  | c :: cs =>
    match h : nextPiece c cs with
    | .error cause => .error ⟨pos, cause⟩
    | .ok piece =>
      have := length_rest_lt h
      match scan (pos.after piece.lexeme) piece.rest with
      | .error d => .error d
      | .ok tokens => .ok ((piece.token? pos).toList ++ tokens)
termination_by cs => cs.length
decreasing_by assumption

end WordC.Scan

namespace WordC

/-- The tokens of a source file. -/
def Token.ofSource (file source : String) : Except Diagnostic (List Token) :=
  Scan.scan (.start file) source.toList

end WordC
