import Mathlib.Data.Nat.Digits.Defs
import WordC.Compile
import WordC.Proofs.Diagnostics.Lowering
import WordC.Proofs.Diagnostics.Parser
import WordC.Proofs.Scan.Lines

/-!
# Where diagnostics point

A source that does not compile is reported at a lexeme of it (`Diagnostic.PointsAt`): at a text that
is misread, or at one of the tokens. The character at the reported row and column is the first one
of that lexeme.

A report shows the source line and below it a caret. In front of the line stands the row, in a field
of four characters. So the caret is under the reported column in the first 9999 rows; a row with
more digits pushes its line to the right, and the caret stays where it is.
-/

namespace WordC
open Text

/-! ### Rows and columns -/

theorem lastLine_of_not_mem {cs : List Char} (h : '\n' ∉ cs) : lastLine cs = cs := by
  rw [lastLine, List.takeWhile_eq_self_iff.2, List.reverse_reverse]
  intro c hc
  have hne : c ≠ '\n' := fun heq => h (heq ▸ List.mem_reverse.1 hc)
  simpa using hne

theorem lastLine_cons_newline (cs : List Char) : lastLine ('\n' :: cs) = lastLine cs := by
  rw [lastLine, List.reverse_cons, List.takeWhile_append]
  split
  · rename_i hall
    rw [lastLine, (List.takeWhile_prefix _).eq_of_length hall]
    simp
  · rfl

theorem lastLine_cons_of_mem {cs : List Char} (h : '\n' ∈ cs) (c : Char) :
    lastLine (c :: cs) = lastLine cs := by
  rw [lastLine, List.reverse_cons, List.takeWhile_append, if_neg, lastLine]
  intro hall
  have hself := (List.takeWhile_prefix _).eq_of_length hall
  have hnewline := List.takeWhile_eq_self_iff.1 hself '\n' (List.mem_reverse.2 h)
  simp at hnewline

/-- A character that does not end a line goes in front of the line behind it. -/
theorem charLines_cons {c : Char} {cs : List Char} (hn : c ≠ '\n')
    (hr : c = '\r' → cs.head? ≠ some '\n') :
    charLines (c :: cs) = (c :: (charLines cs).head?.getD []) :: (charLines cs).tail := by
  rw [charLines.eq_def]
  split
  · rename_i heq
    cases heq
  · rename_i heq
    cases heq
    exact absurd rfl (hr rfl)
  · rename_i heq
    cases heq
    exact absurd rfl hn
  · rename_i heq
    cases heq
    cases charLines cs with
    | nil => rfl
    | cons line lines => rfl

/-- A carriage return in front of a line feed makes no difference. -/
theorem charLines_return (cs : List Char) :
    charLines ('\r' :: '\n' :: cs) = charLines ('\n' :: cs) := by
  simp [charLines]

/-- In a text, the character behind `before` is in the line and column that counting gives. -/
theorem exists_charLine (before after : List Char) {c : Char} (hn : c ≠ '\n') (hr : c ≠ '\r') :
    ∃ text, (charLines (before ++ c :: after))[before.count '\n']? = some text ∧
      text[(lastLine before).length]? = some c := by
  induction before with
  | nil =>
    rw [List.nil_append, charLines_cons hn fun heq => absurd heq hr]
    exact ⟨_, rfl, rfl⟩
  | cons d before ih =>
    obtain ⟨text, htext, hc⟩ := ih
    by_cases hd : d = '\n'
    · subst hd
      refine ⟨text, ?_, by rwa [lastLine_cons_newline]⟩
      rw [List.cons_append, charLines_newline]
      simpa using htext
    have hcount : (d :: before).count '\n' = before.count '\n' := List.count_cons_of_ne hd
    rw [hcount, List.cons_append]
    by_cases hreturn : d = '\r' ∧ (before ++ c :: after).head? = some '\n'
    · obtain ⟨rfl, hhead⟩ := hreturn
      cases before with
      | nil => exact absurd (Option.some.inj hhead) hn
      | cons e before =>
        obtain rfl : e = '\n' := Option.some.inj hhead
        rw [List.cons_append] at htext ⊢
        rw [charLines_return]
        exact ⟨text, htext, by rwa [lastLine_cons_of_mem List.mem_cons_self]⟩
    rw [charLines_cons hd fun heq hhead => hreturn ⟨heq, hhead⟩]
    by_cases hmem : '\n' ∈ before
    · -- the character is in a later line, which `d` does not touch
      obtain ⟨n, hpos⟩ := Nat.exists_eq_succ_of_ne_zero (List.count_pos_iff.2 hmem).ne'
      rw [hpos] at htext ⊢
      refine ⟨text, ?_, by rwa [lastLine_cons_of_mem hmem]⟩
      rwa [List.getElem?_cons_succ, List.getElem?_tail]
    · rw [List.count_eq_zero.2 hmem, ← List.head?_eq_getElem?] at htext
      rw [lastLine_of_not_mem hmem] at hc
      have hmem' : '\n' ∉ d :: before := by simp [hmem, Ne.symm hd]
      rw [List.count_eq_zero.2 hmem, lastLine_of_not_mem hmem', htext]
      exact ⟨d :: text, rfl, by simpa using hc⟩

/-! ### The first character of a lexeme -/

theorem Mark.lexeme_head (m : Mark) :
    ∃ c run, m.lexeme.toList = c :: run ∧ c ≠ '\n' ∧ c ≠ '\r' := by
  cases m <;> exact ⟨_, _, rfl, by decide, by decide⟩

theorem Keyword.lexeme_head (k : Keyword) :
    ∃ c run, k.lexeme.toList = c :: run ∧ c ≠ '\n' ∧ c ≠ '\r' := by
  cases k <;> exact ⟨_, _, rfl, by decide, by decide⟩

theorem ne_of_isDigit {c : Char} (h : c.isDigit = true) : c ≠ '\n' ∧ c ≠ '\r' := by
  constructor <;> rintro rfl <;> cases h

/-- A token begins within a line. -/
theorem Token.IsSpelled.lexeme_head {t : Token} (h : t.IsSpelled) :
    ∃ c run, t.lexeme = c :: run ∧ c ≠ '\n' ∧ c ≠ '\r' := by
  unfold Token.IsSpelled at h
  unfold Token.lexeme
  cases hkind : t.kind with
  | mark m =>
    simp only [hkind] at h
    simpa [h] using m.lexeme_head
  | keyword k =>
    simp only [hkind] at h
    simpa [h] using k.lexeme_head
  | identifier =>
    simp only [hkind] at h
    obtain ⟨c, run, htext, hc, -⟩ := isName_iff.1 h.1
    refine ⟨c, run, htext, ?_⟩
    constructor <;> rintro rfl <;> cases hc
  | number value =>
    simp only [hkind] at h
    obtain ⟨⟨c, run, htext, hc⟩, -⟩ := h
    exact ⟨c, run, htext, ne_of_isDigit hc⟩
  | text | character => exact ⟨_, _, rfl, by decide, by decide⟩

/-- What is misread begins within a line. -/
theorem Scan.IsMisread.lexeme_head {cause : Cause} {lexeme rest : List Char}
    (h : IsMisread cause lexeme rest) :
    ∃ c run, lexeme = c :: run ∧ c ≠ '\n' ∧ c ≠ '\r' := by
  cases h with
  | @stray c _ hblank =>
    refine ⟨c, [], rfl, ?_⟩
    constructor <;> rintro rfl <;> cases hblank
  | @unclosed quote text _ _ _ =>
    refine ⟨quote.mark, text, rfl, ?_⟩
    cases quote <;> decide
  | number hc _ _ _ => exact ⟨_, _, rfl, ne_of_isDigit hc⟩
  | character => exact ⟨_, _, rfl, by decide, by decide⟩

/-! ### The lines of a report -/

/-- The characters of a styled text, without the terminal codes. -/
def Text.visible (spans : List Span) : List Char := spans.flatMap fun span => span.text.toList

theorem Text.length_padLeft (width : Nat) (text : String) :
    (padLeft width text).toList.length = max width text.length := by
  rw [padLeft, String.toList_append, List.length_append, String.toList_ofList,
    List.length_replicate, String.length_toList]
  omega

namespace Diagnostic

/-- The line of a report that shows the source. -/
def sourceSpans (source : String) (p : Position) : List Span :=
  [⟨.plain, " "⟩, ⟨.blue, padLeft 4 (toString p.row) ++ " |"⟩,
   ⟨.plain, " " ++ sourceLine source p⟩]

/-- The line of a report that shows the caret. -/
def caretSpans (p : Position) : List Span :=
  [⟨.plain, "      "⟩, ⟨.blue, "|"⟩,
   ⟨.plain, " " ++ String.ofList (List.replicate (p.column - 1) ' ')⟩, ⟨.alarm, "^"⟩]

/-- How many characters stand in front of the caret. -/
def caretIndent (p : Position) : Nat := (visible (caretSpans p)).idxOf '^'

/-- The character of the source line that the caret is under. Places in a line are counted in
characters, of which a tab is one, however wide it is shown. -/
def overCaret (source : String) (p : Position) : Option Char :=
  (visible (sourceSpans source p))[caretIndent p]?

/-- The two lines are the last ones of the report. -/
theorem report_eq (source : String) (d : Diagnostic) : ∃ front, d.report source = front ++
    (render (sourceSpans source d.pos) ++ "\n" ++ (render (caretSpans d.pos) ++ "\n")) := by
  let place := render [⟨.plain, "     "⟩, ⟨.blue, "-->"⟩, ⟨.plain, " "⟩, ⟨.underlined, d.pos.text⟩]
  let margin := render [⟨.plain, "      "⟩, ⟨.blue, "|"⟩]
  refine ⟨headline d.cause.message ++ (place ++ "\n" ++ (margin ++ "\n")), ?_⟩
  simp only [report, excerpt, sourceSpans, caretSpans, place, margin, String.append_assoc]

theorem visible_sourceSpans (source : String) (p : Position) : visible (sourceSpans source p) =
    ' ' :: ((padLeft 4 (toString p.row)).toList ++ ' ' :: '|' :: ' ' ::
      (sourceLine source p).toList) := by
  simp [visible, sourceSpans]

theorem caretIndent_eq (p : Position) : caretIndent p = 8 + (p.column - 1) := by
  have hcaret : visible (caretSpans p) =
      (List.replicate 6 ' ' ++ '|' :: ' ' :: List.replicate (p.column - 1) ' ') ++ ['^'] := by
    simp [visible, caretSpans]
  rw [caretIndent, hcaret, List.idxOf_append_of_notMem]
  · simp
    omega
  · simp

/-- A column of the source line is printed above the caret, but for the digits of the row that do
not fit into its field. -/
theorem getElem?_sourceSpans (source : String) (p : Position) :
    (visible (sourceSpans source p))[caretIndent p + ((toString p.row).length - 4)]? =
      (sourceLine source p).toList[p.column - 1]? := by
  have hlength := length_padLeft 4 (toString p.row)
  have hindex : caretIndent p + ((toString p.row).length - 4) =
      (padLeft 4 (toString p.row)).toList.length + (p.column - 1 + 3) + 1 := by
    rw [hlength, caretIndent_eq]
    omega
  rw [visible_sourceSpans, hindex, List.getElem?_cons_succ,
    List.getElem?_append_right (Nat.le_add_right _ _), Nat.add_sub_cancel_left]
  rfl

/-! ### Diagnostics of a source -/

/-- What a diagnostic is about: a text that is misread, or one of the tokens. -/
def Concerns (file source : String) (d : Diagnostic) (lexeme after : List Char) : Prop :=
  (Token.ofSource file source = .error d ∧ Scan.IsMisread d.cause lexeme after) ∨
  ∃ tokens, Token.ofSource file source = .ok tokens ∧
    ∃ t ∈ tokens, t.pos = d.pos ∧ t.lexeme = lexeme

/-- The diagnostic is at a lexeme of the source that begins with the character `c`. -/
structure PointsAt (file source : String) (d : Diagnostic) (c : Char) : Prop where
  /-- The position is counted up to the lexeme. -/
  lexeme : ∃ before run after, source.toList = before ++ (c :: run ++ after) ∧
    d.pos = Position.behind file before ∧ Concerns file source d (c :: run) after
  /-- There is a line with that row, and `c` is in its column. -/
  column : ∃ text, (lines source)[d.pos.row - 1]? = some text ∧ d.pos.column ≤ text.length ∧
    text.toList[d.pos.column - 1]? = some c
  /-- The report ends with the source line and the caret line. -/
  report : ∃ front, d.report source =
    front ++ (render (sourceSpans source d.pos) ++ "\n" ++ (render (caretSpans d.pos) ++ "\n"))
  /-- The caret is to the left of `c` by the digits of the row behind the fourth. -/
  caret : (visible (sourceSpans source d.pos))[caretIndent d.pos +
    ((toString d.pos.row).length - 4)]? = some c
  /-- So it is under `c` unless there are such digits, both places being counted in characters: a
  tab in front of `c` is one of them. -/
  under : d.pos.row < 10000 → overCaret source d.pos = some c

theorem pointsAt_of_lexeme {file source : String} {d : Diagnostic} {before run after : List Char}
    {c : Char} (hn : c ≠ '\n') (hr : c ≠ '\r')
    (htext : source.toList = before ++ (c :: run ++ after))
    (hpos : d.pos = Position.behind file before) (hd : Concerns file source d (c :: run) after) :
    PointsAt file source d c := by
  obtain ⟨text, hline, hc⟩ := exists_charLine before (run ++ after) hn hr
  have hrow : d.pos.row - 1 = before.count '\n' := by simp [hpos, Position.behind]
  have hcolumn : d.pos.column - 1 = (lastLine before).length := by simp [hpos, Position.behind]
  have hlines : (lines source)[d.pos.row - 1]? = some (String.ofList text) := by
    rw [lines, List.getElem?_map, htext, hrow, List.cons_append, hline, Option.map_some]
  have hchar : text[d.pos.column - 1]? = some c := by rw [hcolumn, hc]
  have hshown : (visible (sourceSpans source d.pos))[caretIndent d.pos +
      ((toString d.pos.row).length - 4)]? = some c := by
    rw [getElem?_sourceSpans, sourceLine, hlines, Option.getD_some, String.toList_ofList, hchar]
  refine ⟨⟨before, run, after, htext, hpos, hd⟩, ⟨_, hlines, ?_, ?_⟩, report_eq source d, hshown,
    fun hsmall => ?_⟩
  · have hlt := (List.getElem?_eq_some_iff.1 hchar).1
    rw [String.length_ofList]
    omega
  · rwa [String.toList_ofList]
  · have hdigits : (toString d.pos.row).length ≤ 4 := Nat.repr_length _ 4 (by decide) hsmall
    rwa [Nat.sub_eq_zero_of_le hdigits, Nat.add_zero] at hshown

theorem pointsAt_of_token {file source : String} {d : Diagnostic} {tokens : List Token}
    (h : Token.ofSource file source = .ok tokens) (hd : d.pos ∈ tokens.map Token.pos) :
    ∃ c, PointsAt file source d c := by
  obtain ⟨t, ht, hpos⟩ := List.mem_map.1 hd
  have hlayout := Scan.scan_layout source.toList [] h
  obtain ⟨front, after, htext, hfront, hspelled⟩ := hlayout.exists_of_mem ht
  obtain ⟨c, run, hlexeme, hn, hr⟩ := hspelled.lexeme_head
  rw [hlexeme, List.nil_append] at htext
  exact ⟨c, pointsAt_of_lexeme hn hr htext (hpos ▸ hfront) (.inr ⟨tokens, h, t, ht, hpos, hlexeme⟩)⟩

end Diagnostic

/-- A source that does not compile is reported at the first character of a lexeme. -/
theorem compile_error_pointsAt {file source : String} {d : Diagnostic}
    (h : compile file source = .error d) : ∃ c, d.PointsAt file source c := by
  unfold compile at h
  cases htokens : Token.ofSource file source with
  | error d' =>
    rw [htokens] at h
    cases h
    obtain ⟨front, lexeme, rest, htext, hpos, hmisread⟩ :=
      Scan.scan_misread source.toList [] htokens
    obtain ⟨c, run, rfl, hn, hr⟩ := hmisread.lexeme_head
    exact ⟨c, Diagnostic.pointsAt_of_lexeme hn hr htext hpos (.inl ⟨htokens, hmisread⟩)⟩
  | ok tokens =>
    rw [htokens] at h
    refine Diagnostic.pointsAt_of_token htokens ?_
    cases hprogram : Program.ofTokens tokens with
    | error d' =>
      simp only [hprogram] at h
      cases h
      exact Program.ofTokens_error_mem hprogram
    | ok program =>
      simp only [hprogram] at h
      have htree := Program.isItems_of_ofTokens hprogram
      exact htree.positions_subset (fun t ht => List.mem_map_of_mem ht)
        (Listing.ofProgram_error_mem h)

/-- An assignment to an unknown name, behind a tab in the second line. -/
theorem compile_error_pointsAt_unknown :
    let source := "int x;\r\n\ty = x;"
    let d : Diagnostic := ⟨⟨"a.c", 2, 2⟩, .undeclared "y"⟩
    compile "a.c" source = .error d ∧ ∃ c, d.PointsAt "a.c" source c := by
  intro source d
  have h : compile "a.c" source = .error d := by decide +kernel
  exact ⟨h, compile_error_pointsAt h⟩

theorem Scan.scan_newline (file : String) (row : Nat) (cs : List Char) :
    scan ⟨file, row, 1⟩ ('\n' :: cs) = scan ⟨file, row + 1, 1⟩ cs := by
  rw [scan_of_ok (nextPiece_newline cs)]
  change (scan ⟨file, row + 1, 1⟩ cs).map ([] ++ ·) = _
  cases scan ⟨file, row + 1, 1⟩ cs <;> rfl

theorem Scan.scan_newlines (file : String) (rest : List Char) : ∀ n row : Nat,
    scan ⟨file, row, 1⟩ (List.replicate n '\n' ++ rest) = scan ⟨file, row + n, 1⟩ rest
  | 0, row => rfl
  | n + 1, row => by
    rw [List.replicate_succ, List.cons_append, scan_newline, scan_newlines file rest n (row + 1),
      Nat.add_assoc, Nat.add_comm 1]

/-- A stray character behind any number of empty lines. -/
theorem compile_stray (file : String) (n : Nat) :
    compile file (String.ofList (List.replicate n '\n' ++ ['@'])) =
      .error ⟨⟨file, 1 + n, 1⟩, .strayCharacter '@'⟩ := by
  have hscan : Token.ofSource file (String.ofList (List.replicate n '\n' ++ ['@'])) =
      .error ⟨⟨file, 1 + n, 1⟩, .strayCharacter '@'⟩ := by
    rw [Token.ofSource, String.toList_ofList, Position.start, Scan.scan_newlines, Scan.scan]
    rfl
  simp only [compile, hscan]

/-- In the first column of row 10000, the caret is under the blank in front of the line. -/
theorem Diagnostic.overCaret_row (source file : String) :
    overCaret source ⟨file, 10000, 1⟩ = some ' ' := by
  have hrow : (padLeft 4 (toString 10000)).toList = ['1', '0', '0', '0', '0'] := by decide +kernel
  rw [overCaret, caretIndent_eq, visible_sourceSpans, hrow]
  simp

/-- So it is beside a character that is reported there. -/
theorem compile_error_caret_beside :
    let source := String.ofList (List.replicate 9999 '\n' ++ ['@'])
    let d : Diagnostic := ⟨⟨"main.c", 10000, 1⟩, .strayCharacter '@'⟩
    compile "main.c" source = .error d ∧ Diagnostic.overCaret source d.pos = some ' ' :=
  ⟨compile_stray "main.c" 9999, Diagnostic.overCaret_row _ "main.c"⟩

end WordC
