import WordC.Proofs.Scan.Pieces

/-!
# The layout of a source

A source that has tokens consists of their lexemes with gaps around them, and nothing else
(`Layout`). A gap is made of blanks, comments and directives. No lexeme could go on with the
character behind it, and each token has the position that its lexeme begins at: the row counts the
line feeds in front of it, and the column the characters behind the last of these.

The scan is followed piece by piece: `Layout.skip` puts a skipped piece into the gap in front, and
a token begins a new part.
-/

namespace WordC
open Text

/-! ### Positions -/

/-- The characters behind the last line feed. -/
def lastLine (cs : List Char) : List Char := (cs.reverse.takeWhile fun c => c ≠ '\n').reverse

/-- The place behind a text that a file begins with. -/
def Position.behind (file : String) (before : List Char) : Position :=
  ⟨file, 1 + before.count '\n', 1 + (lastLine before).length⟩

/-- Counting along a text leads to the place behind it. -/
theorem Position.after_start (file : String) (before : List Char) :
    (Position.start file).after before = Position.behind file before := by
  induction before using List.reverseRecOn with
  | nil => rfl
  | append_singleton before c ih =>
    rw [Position.after_append, ih]
    by_cases hc : c = '\n'
    · subst hc
      simp [advance, behind, lastLine, Nat.add_assoc]
    · simp [advance, behind, lastLine, hc, Nat.add_assoc]

theorem Position.after_behind (file : String) (before cs : List Char) :
    (behind file before).after cs = behind file (before ++ cs) := by
  rw [← after_start, ← after_start, after_append]

/-! ### Tokens as they are written -/

namespace Token

/-- The text of a token in a source, with the quotes of a literal. -/
def lexeme (t : Token) : List Char :=
  match t.kind with
  | .text => Scan.withQuotes .string t.text.toList
  | .character _ => Scan.withQuotes .character t.text.toList
  | _ => t.text.toList

/-- Would the token, with the character right behind it, be read as something longer? -/
def goesOnWith (t : Token) (c : Char) : Bool :=
  match t.kind with
  | .identifier | .keyword _ => Scan.isWordChar c
  | .number _ => Numeral.isNumeralChar c
  | .mark m => m.completion? = some c
  | .text | .character _ => false

/-- The text of a token is one of its kind. -/
def IsSpelled (t : Token) : Prop :=
  match t.kind with
  | .mark m => t.text = m.lexeme
  | .keyword k => t.text = k.lexeme
  | .identifier => isName t.text = true ∧ Keyword.ofLexeme? t.text = none
  | .number value => (∃ c run, t.text.toList = c :: run ∧ c.isDigit = true) ∧
      (∀ c ∈ t.text.toList, Numeral.isNumeralChar c = true) ∧
      Numeral.value? t.text.toList = some value
  | .text => ∀ c ∈ t.text.toList, Scan.inQuotes .string c = true
  | .character code => ∃ c, t.text.toList = [c] ∧ Scan.inQuotes .character c = true ∧
      Numeral.word? c.toNat = some code

end Token

/-! ### Gaps and lexemes -/

namespace Scan

/-- What stands between tokens, in front of the rest of a text: blanks, comments and directives. -/
inductive IsGap : List Char → List Char → Prop
  | nil {after : List Char} : IsGap [] after
  | blank {c : Char} {gap after : List Char} (hc : isBlank c = true) (h : IsGap gap after) :
    IsGap (c :: gap) after
  | line {run gap after : List Char} (hrun : IsSkipped run (gap ++ after))
    (h : IsGap gap after) : IsGap (run ++ gap) after

/-- A text that stands behind `before` in a file consists of the lexemes of the tokens, with a gap
in front of each and behind the last. -/
inductive Layout (file : String) : List Char → List Char → List Token → Prop
  | nil {before gap : List Char} (hgap : IsGap gap []) : Layout file before gap []
  | cons {before gap after : List Char} {t : Token} {tokens : List Token}
    (hgap : IsGap gap (t.lexeme ++ after)) (hspelled : t.IsSpelled)
    (hpos : t.pos = Position.behind file (before ++ gap))
    (hends : ∀ c ∈ after.head?, t.goesOnWith c = false)
    (h : Layout file (before ++ gap ++ t.lexeme) after tokens) :
    Layout file before (gap ++ (t.lexeme ++ after)) (t :: tokens)

namespace Layout

variable {file : String} {before text : List Char} {tokens : List Token} {c : Char}

/-- A blank in front. -/
theorem blank (hc : isBlank c = true) (h : Layout file (before ++ [c]) text tokens) :
    Layout file before (c :: text) tokens := by
  cases h with
  | nil hgap => exact .nil (.blank hc hgap)
  | @cons _ gap after t tokens hgap hspelled hpos hends h =>
    rw [← List.cons_append]
    refine .cons (.blank hc hgap) hspelled ?_ hends ?_
    · rw [hpos, List.append_assoc, List.singleton_append]
    · rwa [List.append_assoc before [c], List.singleton_append] at h

/-- A comment or a directive in front. -/
theorem line {run : List Char} (hrun : IsSkipped run text)
    (h : Layout file (before ++ run) text tokens) : Layout file before (run ++ text) tokens := by
  cases h with
  | nil hgap => exact .nil (.line (by rwa [List.append_nil]) hgap)
  | @cons _ gap after t tokens hgap hspelled hpos hends h =>
    rw [← List.append_assoc run]
    refine .cons (.line hrun hgap) hspelled ?_ hends ?_
    · rw [hpos, List.append_assoc]
    · rwa [List.append_assoc before run] at h

/-- A token stands in the text, at its position. -/
theorem exists_of_mem (h : Layout file before text tokens) {t : Token} (ht : t ∈ tokens) :
    ∃ front after, before ++ text = front ++ (t.lexeme ++ after) ∧
      t.pos = Position.behind file front ∧ t.IsSpelled := by
  induction h with
  | nil hgap => cases ht
  | @cons before gap after t' tokens hgap hspelled hpos hends h ih =>
    rcases List.mem_cons.1 ht with rfl | ht
    · exact ⟨before ++ gap, after, by simp, hpos, hspelled⟩
    · obtain ⟨front, rest, htext, hrest⟩ := ih ht
      exact ⟨front, rest, by rw [← htext]; simp, hrest⟩

end Layout

/-! ### Scanning -/

variable {piece : Piece} {pos : Position} {t : Token}

/-- The token of a piece is written as the piece, and what follows does not go on with it. -/
theorem IsPiece.token (h : IsPiece piece) (ht : piece.token? pos = some t) :
    t.lexeme = piece.lexeme ∧ t.IsSpelled ∧ t.pos = pos ∧
      ∀ c ∈ piece.rest.head?, t.goesOnWith c = false := by
  cases h with
  | line h | blank hc => cases ht
  | mark hrest =>
    cases ht
    refine ⟨?_, ?_, rfl, fun c hc => ?_⟩
    · simp [Token.make, Token.lexeme]
    · simp [Token.make, Token.IsSpelled]
    · simpa [Token.make, Token.goesOnWith] using hrest c hc
  | @word text rest hname hrest =>
    cases ht
    -- a word is a keyword or an identifier, and ends in the same way
    cases hword : Keyword.ofLexeme? (String.ofList text) with
    | none =>
      refine ⟨?_, ?_, rfl, fun c hc => ?_⟩
      · simp [Token.make, Token.lexeme, hword]
      · simp [Token.make, Token.IsSpelled, hword, hname]
      · simpa [Token.make, Token.goesOnWith, hword] using hrest c hc
    | some k =>
      refine ⟨?_, ?_, rfl, fun c hc => ?_⟩
      · simp [Token.make, Token.lexeme, hword]
      · simp [Token.make, Token.IsSpelled, hword, Keyword.lexeme_of_ofLexeme? hword]
      · simpa [Token.make, Token.goesOnWith, hword] using hrest c hc
  | number hc hrun hvalue hrest =>
    cases ht
    refine ⟨?_, ?_, rfl, fun d hd => ?_⟩
    · simp [Token.make, Token.lexeme]
    · simpa [Token.make, Token.IsSpelled, hvalue, hc] using hrun
    · simpa [Token.make, Token.goesOnWith] using hrest d hd
  | string htext =>
    cases ht
    refine ⟨?_, ?_, rfl, fun _ _ => rfl⟩
    · simp [Token.make, Token.lexeme]
    · simpa [Token.make, Token.IsSpelled] using htext
  | character hc hcode =>
    cases ht
    refine ⟨?_, ?_, rfl, fun _ _ => rfl⟩
    · simp [Token.make, Token.lexeme]
    · simp [Token.make, Token.IsSpelled, hc, hcode]

/-- A piece that is no token is a part of a gap. -/
theorem IsPiece.skip {file : String} {before : List Char} {tokens : List Token} (h : IsPiece piece)
    (hskip : piece.token? pos = none)
    (hrest : Layout file (before ++ piece.lexeme) piece.rest tokens) :
    Layout file before (piece.lexeme ++ piece.rest) tokens := by
  cases h with
  | line h => exact hrest.line h
  | blank hc => exact hrest.blank hc
  | mark | word | number | string | character => cases hskip

theorem scan_layout {file : String} : ∀ (cs before : List Char) {tokens : List Token},
    scan (Position.behind file before) cs = .ok tokens → Layout file before cs tokens
  | [], before, _, h => by
    rw [scan] at h
    cases h
    exact .nil .nil
  | c :: cs, before, _, h => by
    rw [scan] at h
    split at h
    · cases h
    · rename_i piece hpiece
      split at h
      · cases h
      · rename_i tokens htokens
        cases h
        have hcut := isPiece_of_nextPiece hpiece
        rw [Position.after_behind] at htokens
        have hrest := scan_layout piece.rest (before ++ piece.lexeme) htokens
        rw [← append_of_nextPiece hpiece]
        cases htoken : piece.token? (Position.behind file before) with
        | none => exact hcut.skip htoken hrest
        | some t =>
          obtain ⟨hlexeme, hspelled, hat, hends⟩ := hcut.token htoken
          rw [← hlexeme] at hrest ⊢
          -- no gap in front: a skipped piece in front of the token puts one there
          refine @Layout.cons _ _ [] _ _ _ .nil hspelled ?_ hends ?_
          · rw [hat, List.append_nil]
          · rwa [List.append_nil]
termination_by cs => cs.length
decreasing_by exact length_rest_lt ‹_›

/-- A text without tokens is misread somewhere, and that is where the fault is reported. -/
theorem scan_misread {file : String} : ∀ (cs before : List Char) {d : Diagnostic},
    scan (Position.behind file before) cs = .error d → ∃ front lexeme rest,
      before ++ cs = front ++ (lexeme ++ rest) ∧ d.pos = Position.behind file front ∧
        IsMisread d.cause lexeme rest
  | [], _, _, h => by
    rw [scan] at h
    cases h
  | c :: cs, before, _, h => by
    rw [scan] at h
    split at h
    · rename_i cause hcause
      cases h
      obtain ⟨lexeme, rest, htext, hmisread⟩ := isMisread_of_nextPiece hcause
      exact ⟨before, lexeme, rest, by rw [htext], rfl, hmisread⟩
    · rename_i piece hpiece
      split at h
      · rename_i d hfail
        cases h
        rw [Position.after_behind] at hfail
        obtain ⟨front, lexeme, rest, htext, hrest⟩ :=
          scan_misread piece.rest (before ++ piece.lexeme) hfail
        refine ⟨front, lexeme, rest, ?_, hrest⟩
        rw [← htext, ← append_of_nextPiece hpiece, List.append_assoc]
      · cases h
termination_by cs => cs.length
decreasing_by exact length_rest_lt ‹_›

end Scan

/-- A source that has tokens consists of their lexemes and of gaps, without anything lost, and the
tokens are at the positions where their lexemes begin. -/
theorem Token.ofSource_layout {file source : String} {tokens : List Token}
    (h : Token.ofSource file source = .ok tokens) : Scan.Layout file [] source.toList tokens :=
  Scan.scan_layout source.toList [] h

/-- A directive, marks and a number side by side, a comment with a quote in it, and a literal. -/
theorem Token.ofSource_layout_comment :
    let source := "# é\nx<=0x1F;// \"\n\t'a'"
    let tokens : List Token :=
      [⟨.identifier, "x", ⟨"a.c", 2, 1⟩⟩, ⟨.mark .lessEqual, "<=", ⟨"a.c", 2, 2⟩⟩,
       ⟨.number 31, "0x1F", ⟨"a.c", 2, 4⟩⟩, ⟨.mark .semicolon, ";", ⟨"a.c", 2, 8⟩⟩,
       ⟨.character 97, "a", ⟨"a.c", 3, 2⟩⟩]
    Token.ofSource "a.c" source = .ok tokens ∧ Scan.Layout "a.c" [] source.toList tokens := by
  intro source tokens
  have h : Token.ofSource "a.c" source = .ok tokens := by decide +kernel
  exact ⟨h, Token.ofSource_layout h⟩

end WordC
