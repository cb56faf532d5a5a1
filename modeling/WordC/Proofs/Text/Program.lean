import WordC.Compile
import WordC.Proofs.Labels.Program
import WordC.Proofs.Source.Grammar
import WordC.Proofs.Text.Listing

/-!
# What the text of a compiled source says

The names in a compiled listing are names of the source or generated, and its texts stay within a
line. So the text of the listing tells its lines, but for one thing: a label that is named like a
register is read as the register.
-/

namespace WordC

namespace Lowering

theorem mem_of_mem_stringLines {content : String} : ∀ {texts : List String} {n : Nat},
    .string content ∈ stringLines n texts → content ∈ texts
  | [], _, h => by simp [stringLines] at h
  | text :: texts, n, h => by
    simp only [stringLines, List.mem_cons, reduceCtorEq, Line.string.injEq, false_or] at h
    rcases h with rfl | h
    · exact List.mem_cons_self
    · exact List.mem_cons_of_mem text (mem_of_mem_stringLines h)

section Program

variable {program : Program} {e : Emission Session Unit} (h : lowerItems program .empty = .ok e)
  (hc : (Stmt.contentsOfAll program).IsNamed)

include h hc

theorem isName_of_get? {x : String} (hx : (e.state.symbols.globals.get? x).isSome = true) :
    isName x = true :=
  hc.names x (((program_grows h).declared x hx).resolve_left (by simp))

theorem isName_of_mem_labels {x : String} (hx : x ∈ labelsOf (e.lines ++ dataLines e.state)) :
    isName x = true := by
  rw [(program_labels h).mem_iff, List.mem_append, List.mem_append, List.mem_append] at hx
  rcases hx with (hflow | htext) | (hdef | hstatic)
  · obtain ⟨n, -, rfl⟩ := List.mem_map.1 hflow
    exact isName_flowLabel n
  · obtain ⟨n, -, rfl⟩ := List.mem_map.1 htext
    exact isName_stringLabel n
  · exact hc.names x (.inr (.inr hdef))
  · obtain ⟨ty, constant, hx⟩ := (mem_staticNames (program_valid h).nodup).1 hstatic
    exact isName_of_get? h hc (by rw [hx]; rfl)

theorem isName_of_mem_references {x : String}
    (hx : x ∈ referencesOf (e.lines ++ dataLines e.state)) : isName x = true := by
  have hrefers := program_refersTo h
  cases hgenerated : isGeneratedLabel x with
  | false => exact isName_of_get? h hc (hrefers.names x hx hgenerated)
  | true =>
    have hliteral := List.mem_filter.2 ⟨hx, hgenerated⟩
    rw [hrefers.literals] at hliteral
    obtain ⟨n, -, rfl⟩ := List.mem_map.1 hliteral
    exact isName_stringLabel n

/-- Texts stand in the data only. -/
theorem isLine_of_mem {content : String} (hmem : .string content ∈ e.lines ++ dataLines e.state) :
    isLine content = true := by
  have hcode := lowerItems_labels_of (fun item _ => lowerStmt_labels item) h
  rcases List.mem_append.1 hmem with hmem | hmem
  · exact absurd (List.all_eq_true.1 hcode.code _ hmem) Bool.false_ne_true
  rcases List.mem_append.1 hmem with hmem | hmem
  · simp [staticLines] at hmem
  · have htext := mem_of_mem_stringLines hmem
    rw [program_strings h] at htext
    exact hc.texts content htext

/-- The names in the lines of a program are names, and its texts stay within a line. -/
theorem program_isNamed : ∀ line ∈ e.lines ++ dataLines e.state, line.IsNamed := by
  obtain ⟨outside, hlaid, hjumps⟩ := program_laidOut h
  have hinside := jumpsInside_nil.1 (hlaid.jumpsInside hjumps)
  intro line hline
  cases line with
  | label x => exact isName_of_mem_labels h hc (List.mem_filterMap.2 ⟨_, hline, rfl⟩)
  | instruction i =>
    -- a jump goes to one of the labels
    constructor
    · intro x hx
      exact isName_of_mem_labels h hc (hinside x (List.mem_filterMap.2 ⟨_, hline, hx⟩))
    · intro x hx
      exact isName_of_mem_references h hc (List.mem_flatMap.2 ⟨_, hline, hx⟩)
  | reserve bytes => exact True.intro
  | string content => exact isLine_of_mem h hc hline

end Program

end Lowering

theorem compile_ok {file source : String} {listing : Listing}
    (h : compile file source = .ok listing) :
    listing.source = file ∧ ∀ line ∈ listing.lines, line.IsNamed := by
  obtain ⟨tokens, program, htokens, hprogram, h⟩ := compile_eq_ok_iff.1 h
  obtain ⟨e, he, rfl⟩ := Listing.ofProgram_ok h
  have hc := Program.ofTokens_named (Token.ofSource_sound htokens) hprogram
  exact ⟨rfl, Lowering.program_isNamed he hc⟩

/-- Two sources have the same assembly text exactly if their lines are read the same. A line is read
as it is unless one of its operands has a label that is named like a register; without such labels
the text determines the lines. -/
theorem compile_text_eq_iff {file source source' : String} {listing listing' : Listing}
    (h : compile file source = .ok listing) (h' : compile file source' = .ok listing') :
    (listing.text = listing'.text ↔
      listing.lines.map Line.asRead = listing'.lines.map Line.asRead) ∧
    (listing.lines.map Line.asRead = listing.lines ↔
      ∀ x ∈ referencesOf listing.lines, Register.ofName? x = none) ∧
    ((∀ x ∈ referencesOf listing.lines ++ referencesOf listing'.lines, Register.ofName? x = none) →
      listing.text = listing'.text → listing.lines = listing'.lines) := by
  obtain ⟨hfile, hnamed⟩ := compile_ok h
  obtain ⟨hfile', hnamed'⟩ := compile_ok h'
  have htext : listing.text = listing'.text ↔
      listing.lines.map Line.asRead = listing'.lines.map Line.asRead := by
    obtain ⟨source, lines⟩ := listing
    obtain ⟨source', lines'⟩ := listing'
    subst hfile hfile'
    exact Listing.text_eq_iff hnamed hnamed'
  refine ⟨htext, map_asRead_eq_self_iff, fun hnone heq => ?_⟩
  rw [List.forall_mem_append] at hnone
  have hread := htext.1 heq
  rwa [map_asRead_eq_self_iff.2 hnone.1, map_asRead_eq_self_iff.2 hnone.2] at hread

/-- What `-5;` becomes, then a load, then the variable of the file. -/
def loadLines (source : Address) (name : String) : List Line :=
  [.instruction (.mov (Register.general 0) (.immediate 5)),
   .instruction (.mov (Register.general 1) (.immediate 0)),
   .instruction (.sub (.general 1) (Register.general 0)),
   .instruction (.mov (Register.general 0) source),
   .label name,
   .reserve 2]

/-- The variable `x` is told from the register `r1` by the text. -/
theorem compile_text_eq_iff_load :
    compile "a.c" "int x; -5; x;" = .ok ⟨"a.c", loadLines (.label "x") "x"⟩ ∧
      compile "a.c" "int x; *(-5);" = .ok ⟨"a.c", loadLines (.register (.general 1)) "x"⟩ ∧
      (Listing.mk "a.c" (loadLines (.label "x") "x")).text ≠
        (Listing.mk "a.c" (loadLines (.register (.general 1)) "x")).text := by
  have hname : compile "a.c" "int x; -5; x;" = .ok ⟨"a.c", loadLines (.label "x") "x"⟩ := by
    decide +kernel
  have hpointer : compile "a.c" "int x; *(-5);" =
      .ok ⟨"a.c", loadLines (.register (.general 1)) "x"⟩ := by
    decide +kernel
  obtain ⟨-, -, hlines⟩ := compile_text_eq_iff hname hpointer
  refine ⟨hname, hpointer, fun htext => ?_⟩
  have heq := hlines (by decide) htext
  exact absurd heq (by decide)

/-- The variable `r1` is not told from the register `r1` by the text. -/
theorem compile_text_register_name :
    compile "a.c" "int r1; -5; r1;" = .ok ⟨"a.c", loadLines (.label "r1") "r1"⟩ ∧
      compile "a.c" "int r1; *(-5);" = .ok ⟨"a.c", loadLines (.register (.general 1)) "r1"⟩ ∧
      (Listing.mk "a.c" (loadLines (.label "r1") "r1")).text =
        (Listing.mk "a.c" (loadLines (.register (.general 1)) "r1")).text ∧
      loadLines (.label "r1") "r1" ≠ loadLines (.register (.general 1)) "r1" := by
  refine ⟨by decide +kernel, by decide +kernel, by decide +kernel, by decide⟩

end WordC
