import WordC.Proofs.Labels.Layout
import WordC.Proofs.Labels.Stmt

/-!
# Labels of programs

The listing of a program defines each label once, its jumps and operands name labels that it
defines, functions without a body apart, and each string literal is referred to once, at the label
in front of its text (`Listing.WellLabelled`).
-/

namespace WordC

namespace Lowering

/-! ### Data -/

/-- The names of the variables of the file. -/
def staticNames (table : SymbolTable) : List String := table.statics.map Prod.fst

theorem labelsOf_staticLines (table : SymbolTable) :
    labelsOf (staticLines table) = staticNames table := by
  simp only [staticLines, labelsOf, staticNames, List.filterMap_flatMap]
  induction table.statics with
  | nil => rfl
  | cons entry rest ih => exact congrArg (entry.1 :: ·) ih

theorem labelsOf_stringLines (texts : List String) : ∀ n,
    labelsOf (stringLines n texts) = (List.range' n texts.length).map stringLabel := by
  induction texts with
  | nil => exact fun n => rfl
  | cons text texts ih =>
    intro n
    rw [stringLines, List.length_cons, List.range'_succ, List.map_cons, ← ih (n + 1)]
    rfl

/-- There is no instruction among the data. -/
theorem isInstruction_of_mem_dataLines {s : Session} {line : Line} (h : line ∈ dataLines s) :
    line.isInstruction = false := by
  have hstrings (texts : List String) : ∀ n, ∀ line ∈ stringLines n texts,
      line.isInstruction = false := by
    induction texts with
    | nil => exact fun n line hline => absurd hline List.not_mem_nil
    | cons text texts ih =>
      intro n line hline
      rw [stringLines, List.mem_cons, List.mem_cons] at hline
      rcases hline with rfl | rfl | hline
      · rfl
      · rfl
      · exact ih (n + 1) line hline
  rcases List.mem_append.1 h with hline | hline
  · simp only [staticLines, List.mem_flatMap, List.mem_cons, List.not_mem_nil, or_false] at hline
    obtain ⟨entry, -, rfl | rfl⟩ := hline <;> rfl
  · exact hstrings _ _ line hline

theorem jumpsOf_dataLines (s : Session) : jumpsOf (dataLines s) = [] := by
  rw [jumpsOf, List.filterMap_eq_nil_iff]
  intro line hline
  cases line with
  | instruction i => exact absurd (isInstruction_of_mem_dataLines hline) Bool.noConfusion
  | _ => rfl

theorem referencesOf_dataLines (s : Session) : referencesOf (dataLines s) = [] := by
  rw [referencesOf, List.flatMap_eq_nil_iff]
  intro line hline
  cases line with
  | instruction i => exact absurd (isInstruction_of_mem_dataLines hline) Bool.noConfusion
  | _ => rfl

/-- The data behind the label of a text is that text. -/
theorem exists_stringLines_eq {texts : List String} : ∀ {n i : Nat} {text : String},
    texts[i]? = some text → ∃ before after,
      stringLines n texts = before ++ .label (stringLabel (n + i)) :: .string text :: after := by
  induction texts with
  | nil =>
    intro n i text h
    simp at h
  | cons first texts ih =>
    intro n i text h
    cases i with
    | zero =>
      rw [List.getElem?_cons_zero, Option.some.injEq] at h
      exact ⟨[], stringLines (n + 1) texts, by simp [stringLines, h]⟩
    | succ i =>
      rw [List.getElem?_cons_succ] at h
      obtain ⟨before, after, hlines⟩ := ih (n := n + 1) h
      refine ⟨.label (stringLabel n) :: .string first :: before, after, ?_⟩
      rw [stringLines, hlines, show n + 1 + i = n + (i + 1) by omega]
      rfl

/-! ### Names of the file -/

theorem mem_staticNames {table : SymbolTable} (hnodup : table.globals.names.Nodup) {x : String} :
    x ∈ staticNames table ↔ ∃ ty constant, table.globals.get? x = some (.static ty constant) := by
  simp only [staticNames, SymbolTable.statics, List.mem_map, List.mem_filterMap]
  constructor
  · rintro ⟨_, ⟨⟨y, symbol⟩, hmem, hstatic⟩, rfl⟩
    cases symbol with
    | static ty constant =>
      cases hstatic
      exact ⟨ty, constant, Scope.get?_of_mem hnodup hmem⟩
    | stack offset ty constant => cases hstatic
    | function arity defined => cases hstatic
  · rintro ⟨ty, constant, h⟩
    exact ⟨(x, ty), ⟨_, Scope.mem_of_get? h, rfl⟩, rfl⟩

theorem nodup_staticNames {table : SymbolTable} (hnodup : table.globals.names.Nodup) :
    (staticNames table).Nodup := by
  refine hnodup.sublist ?_
  rw [staticNames, SymbolTable.statics, Scope.names]
  induction table.globals with
  | nil => exact .slnil
  | cons entry rest ih =>
    obtain ⟨x, symbol⟩ := entry
    cases symbol with
    | static ty constant => exact ih.cons_cons x
    | stack offset ty constant => exact ih.cons x
    | function arity defined => exact ih.cons x

theorem count_definitions {scope : Scope} {c : Contents} (h : Scope.Grows [] c scope) (x : String) :
    c.definitions.count x = scope.bodies x := by
  have hbodies := h.bodies x
  simpa [Scope.bodies] using hbodies.symm

/-- The functions with a body. -/
theorem mem_definitions {scope : Scope} {c : Contents} (h : Scope.Grows [] c scope) {x : String} :
    x ∈ c.definitions ↔ ∃ arity, scope.get? x = some (.function arity true) := by
  rw [← List.count_pos_iff, count_definitions h, Scope.bodies]
  cases scope.get? x with
  | none => simp
  | some symbol =>
    cases symbol with
    | function arity defined => cases defined <;> simp [Symbol.bodies]
    | stack offset ty constant => simp [Symbol.bodies]
    | static ty constant => simp [Symbol.bodies]

theorem nodup_definitions {scope : Scope} {c : Contents} (h : Scope.Grows [] c scope) :
    c.definitions.Nodup := by
  rw [List.nodup_iff_count_le_one]
  intro x
  rw [count_definitions h]
  exact scope.bodies_le_one x

/-! ### Labels -/

theorem nodup_generated (n m : Nat) :
    ((List.range' 0 n).map flowLabel ++ (List.range' 0 m).map stringLabel).Nodup := by
  refine List.nodup_append.2 ⟨.map flowLabel_injective List.nodup_range',
    .map stringLabel_injective List.nodup_range', fun x hx y hy => ?_⟩
  obtain ⟨i, -, rfl⟩ := List.mem_map.1 hx
  obtain ⟨j, -, rfl⟩ := List.mem_map.1 hy
  exact flowLabel_ne_stringLabel i j

theorem nodup_named {table : SymbolTable} {c : Contents} (hv : table.Valid 0)
    (h : Scope.Grows [] c table.globals) : (c.definitions ++ staticNames table).Nodup := by
  refine List.nodup_append.2 ⟨nodup_definitions h, nodup_staticNames hv.nodup, fun x hx y hy => ?_⟩
  rintro rfl
  obtain ⟨arity, hfunction⟩ := (mem_definitions h).1 hx
  obtain ⟨ty, constant, hstatic⟩ := (mem_staticNames hv.nodup).1 hy
  rw [hfunction] at hstatic
  cases hstatic

section Program

variable {program : Program} {e : Emission Session Unit} (h : lowerItems program .empty = .ok e)

include h

theorem program_valid : e.state.symbols.Valid 0 :=
  ((lowerItems_emits h).valid Session.Valid.empty).symbols

theorem program_grows : Scope.Grows [] (Stmt.contentsOfAll program) e.state.symbols.globals :=
  (lowerItems_emits h).grows Session.Valid.empty

theorem program_strings : e.state.scratch.strings = Stmt.literalsOfAll program :=
  (lowerItems_emits h).strings

/-- Generated labels and names of the file, each of them once. -/
theorem program_labels :
    (labelsOf (e.lines ++ dataLines e.state)).Perm
      (((List.range' 0 e.state.scratch.labels).map flowLabel ++
        (List.range' 0 (Stmt.literalsOfAll program).length).map stringLabel) ++
      (Stmt.definitionsOfAll program ++ staticNames e.state.symbols)) := by
  have hcode := lowerItems_labels_of (fun item _ => lowerStmt_labels item) h
  rw [List.perm_iff_count]
  intro x
  have hcount : (labelsOf e.lines).count x =
      ((List.range' 0 e.state.scratch.labels).map flowLabel).count x +
        (Stmt.definitionsOfAll program).count x := hcode.count x
  rw [dataLines, labelsOf_append, labelsOf_append, labelsOf_staticLines, labelsOf_stringLines,
    program_strings h]
  simp only [List.count_append, hcount]
  omega

theorem program_labels_nodup : (labelsOf (e.lines ++ dataLines e.state)).Nodup := by
  have hv := program_valid h
  have hgrows := program_grows h
  rw [(program_labels h).nodup_iff]
  refine List.nodup_append.2 ⟨nodup_generated _ _, nodup_named hv hgrows, fun x hx y hy hxy => ?_⟩
  subst hxy
  -- a name of the file does not look like a generated label
  have hgenerated : isGeneratedLabel x = true := by
    rcases List.mem_append.1 hx with hx | hx
    · obtain ⟨i, -, rfl⟩ := List.mem_map.1 hx
      simp
    · obtain ⟨i, -, rfl⟩ := List.mem_map.1 hx
      simp
  have hnamed : isGeneratedLabel x = false := by
    rcases List.mem_append.1 hy with hy | hy
    · obtain ⟨arity, hfunction⟩ := (mem_definitions hgrows).1 hy
      exact (hv.globals x _ hfunction).2
    · obtain ⟨ty, constant, hstatic⟩ := (mem_staticNames hv.nodup).1 hy
      exact (hv.globals x _ hstatic).2
  rw [hgenerated] at hnamed
  cases hnamed

/-- Names of the file are labels, except for functions without a body. -/
theorem program_label_of_get? {x : String}
    (hx : (e.state.symbols.globals.get? x).isSome = true) :
    x ∈ labelsOf (e.lines ++ dataLines e.state) ∨
      x ∈ Stmt.prototypesOfAll program ∧ x ∉ Stmt.definitionsOfAll program := by
  have hv := program_valid h
  have hgrows := program_grows h
  obtain ⟨symbol, hsymbol⟩ := Option.isSome_iff_exists.1 hx
  have hnamed : x ∈ Stmt.definitionsOfAll program ++ staticNames e.state.symbols →
      x ∈ labelsOf (e.lines ++ dataLines e.state) := fun hx =>
    (program_labels h).mem_iff.2 (List.mem_append_right _ hx)
  cases symbol with
  | stack offset ty constant => cases (hv.globals x _ hsymbol).1
  | static ty constant =>
    have hstatic := (mem_staticNames hv.nodup).2 ⟨ty, constant, hsymbol⟩
    exact .inl (hnamed (List.mem_append_right _ hstatic))
  | function arity defined =>
    cases defined with
    | true =>
      exact .inl (hnamed (List.mem_append_left _ ((mem_definitions hgrows).2 ⟨arity, hsymbol⟩)))
    | false =>
      refine .inr ⟨(hgrows.prototypes x arity hsymbol).resolve_left (by simp), fun hdef => ?_⟩
      obtain ⟨_, hbody⟩ := (mem_definitions hgrows).1 hdef
      rw [hsymbol] at hbody
      cases hbody

theorem program_refersTo :
    RefersTo (fun x => (e.state.symbols.globals.get? x).isSome = true) 0
      (Stmt.literalsOfAll program).length (e.lines ++ dataLines e.state) := by
  have hcode := (lowerItems_emits h).references Session.Valid.empty
  exact hcode.append (.plain _ (referencesOf_dataLines e.state))

theorem program_references {x : String} (hx : x ∈ referencesOf (e.lines ++ dataLines e.state)) :
    x ∈ labelsOf (e.lines ++ dataLines e.state) ∨
      x ∈ Stmt.prototypesOfAll program ∧ x ∉ Stmt.definitionsOfAll program := by
  have hrefers := program_refersTo h
  cases hgenerated : isGeneratedLabel x with
  | false => exact program_label_of_get? h (hrefers.names x hx hgenerated)
  | true =>
    -- of the generated names only those of string literals are in operands
    have hliteral : x ∈ (referencesOf (e.lines ++ dataLines e.state)).filter isGeneratedLabel :=
      List.mem_filter.2 ⟨hx, hgenerated⟩
    rw [hrefers.literals] at hliteral
    exact .inl ((program_labels h).mem_iff.2
      (List.mem_append_left _ (List.mem_append_right _ hliteral)))

theorem program_count_stringLabel {i : Nat} (hi : i < (Stmt.literalsOfAll program).length) :
    (referencesOf (e.lines ++ dataLines e.state)).count (stringLabel i) = 1 := by
  have hfilter : (referencesOf (e.lines ++ dataLines e.state)).count (stringLabel i) =
      ((referencesOf (e.lines ++ dataLines e.state)).filter isGeneratedLabel).count
        (stringLabel i) := (List.count_filter (by simp)).symm
  rw [hfilter, (program_refersTo h).literals]
  refine List.count_eq_one_of_mem (.map stringLabel_injective List.nodup_range') ?_
  exact List.mem_map.2 ⟨i, by simp [List.mem_range'_1, hi], rfl⟩

theorem program_laidOut : LaidOut (Stmt.functionsOfAll program) (e.lines ++ dataLines e.state) := by
  obtain ⟨outside, hlaid, hjumps⟩ :=
    lowerItems_laidOut_of (fun item _ => lowerStmt_laidOut item) h
  exact ⟨_, hlaid.appendCode (dataLines e.state),
    hjumps.append (.plain (jumpsOf_dataLines e.state))⟩

end Program

end Lowering

/-! ### Listings -/

/-- The labels of a listing fit together, and fit the program it comes from. -/
structure Listing.WellLabelled (listing : Listing) (program : Program) : Prop where
  /-- No label is defined twice. -/
  nodup : listing.labels.Nodup
  /-- Each jump goes to a label of the listing. -/
  jumps : ∀ x ∈ jumpsOf listing.lines, x ∈ listing.labels
  /-- The lines fall into segments, one for each function definition and others for the code around.
  A jump in the lines of a definition goes to a label among those lines, and a jump outside of all
  definitions goes to a label outside of all of them. -/
  segments : ∃ segments : List Segment, Segment.linesOf segments = listing.lines ∧
    Segment.ownersOf segments = Stmt.functionsOfAll program ∧
    (∀ x ∈ jumpsOf (Segment.outsideOf segments), x ∈ labelsOf (Segment.outsideOf segments)) ∧
    ∀ segment ∈ segments, ∀ f, segment.owner = some f →
      (∃ s t, Lowering.lowerStmt f s = .ok ⟨(), segment.lines, t⟩) ∧
      ∀ x ∈ jumpsOf segment.lines, x ∈ labelsOf segment.lines
  /-- Each name in an operand is a label of the listing, or that of a function which is declared
  without a body and not defined. -/
  references : ∀ x ∈ referencesOf listing.lines, x ∈ listing.labels ∨
    x ∈ Stmt.prototypesOfAll program ∧ x ∉ Stmt.definitionsOfAll program
  /-- The operands name the labels of the string literals in order. -/
  literals : (referencesOf listing.lines).filter isGeneratedLabel =
    (List.range' 0 (Stmt.literalsOfAll program).length).map stringLabel
  /-- Each string literal is named once, and its text stands behind its label. -/
  texts : ∀ i text, (Stmt.literalsOfAll program)[i]? = some text →
    (referencesOf listing.lines).count (stringLabel i) = 1 ∧
    ∃ before after, listing.lines = before ++ .label (stringLabel i) :: .string text :: after

theorem Listing.ofProgram_ok {file : String} {program : Program} {listing : Listing}
    (h : Listing.ofProgram file program = .ok listing) :
    ∃ e, Lowering.lowerItems program .empty = .ok e ∧
      listing = ⟨file, e.lines ++ Lowering.dataLines e.state⟩ := by
  unfold Listing.ofProgram at h
  split at h
  · cases h
  · rename_i e he
    cases h
    exact ⟨e, he, rfl⟩

open Lowering Segment in
/-- The labels of the listing of any program fit together. -/
theorem Listing.ofProgram_wellLabelled {file : String} {program : Program} {listing : Listing}
    (h : Listing.ofProgram file program = .ok listing) : listing.WellLabelled program := by
  obtain ⟨e, he, rfl⟩ := Listing.ofProgram_ok h
  obtain ⟨outside, hlaid, hjumps⟩ := program_laidOut he
  have hinside := hlaid.jumpsInside hjumps
  obtain ⟨segments, hlines, rfl, howners, howned⟩ := hlaid
  refine ⟨program_labels_nodup he, jumpsInside_nil.1 hinside, ?_,
    fun x hx => program_references he hx, (program_refersTo he).literals, fun i text hi => ?_⟩
  · refine ⟨segments, hlines, howners, jumpsInside_nil.1 hjumps, ?_⟩
    intro segment hsegment f howner
    obtain ⟨hrun, hstay⟩ := howned segment hsegment f howner
    exact ⟨hrun, jumpsInside_nil.1 hstay⟩
  · refine ⟨program_count_stringLabel he (List.getElem?_eq_some_iff.1 hi).1, ?_⟩
    rw [← program_strings he] at hi
    obtain ⟨before, after, htext⟩ := exists_stringLines_eq (n := 0) hi
    rw [Nat.zero_add] at htext
    refine ⟨e.lines ++ (staticLines e.state.symbols ++ before), after, ?_⟩
    rw [dataLines, htext, List.append_assoc, List.append_assoc]

/-- `void put(char* s); char* last;` and
`if (last) void show() { if (last) put(last = "a"); else put("b"); }` -/
def greeting : Program :=
  [.prototype default ⟨"put", .void, [⟨"s", .pointer .char⟩]⟩,
   .var default ⟨"last", .pointer .char, false, none⟩,
   .ifThen default (.name default "last") (.function default ⟨"show", .void, []⟩
     (.ifElse default (.name default "last")
       (.expr default (.call default (.name default "put")
         [.assign default (.name default "last") (.text default "a")]))
       (.expr default (.call default (.name default "put") [.text default "b"]))))]

/-- The lines of `greeting`: those of `show` stand between the jumps around them. -/
def greetingLines : List Line :=
  [.instruction (.mov (Register.general 0) (Address.label "last")),
   .instruction (.jnz (.general 0) "L0"),
   .instruction (.jmp "L1"),
   .label "L0",
   .label "show",
   .instruction (.push .sf),
   .instruction (.mov Register.sf Register.sp),
   .instruction (.mov (Register.general 0) (Address.label "last")),
   .instruction (.jnz (.general 0) "L2"),
   .instruction (.jmp "L3"),
   .label "L2",
   .instruction (.mov (Register.general 0) (.label "put")),
   .instruction (.mov (Register.general 1) (.label "S0")),
   .instruction (.mov (Address.label "last") (Register.general 1)),
   .instruction (.push (.general 1)),
   .instruction (.call (.general 0)),
   .instruction (.add .sp (.immediate 2)),
   .instruction (.mov (Register.general 0) Register.rv),
   .instruction (.jmp "L4"),
   .label "L3",
   .instruction (.mov (Register.general 0) (.label "put")),
   .instruction (.mov (Register.general 1) (.label "S1")),
   .instruction (.push (.general 1)),
   .instruction (.call (.general 0)),
   .instruction (.add .sp (.immediate 2)),
   .instruction (.mov (Register.general 0) Register.rv),
   .label "L4",
   .instruction (.mov Register.sp Register.sf),
   .instruction (.pop .sf),
   .instruction .ret,
   .label "L1",
   .label "last",
   .reserve 2,
   .label "S0",
   .string "a",
   .label "S1",
   .string "b"]

theorem Listing.ofProgram_wellLabelled_greeting :
    Listing.ofProgram "a.c" greeting = .ok ⟨"a.c", greetingLines⟩ ∧
      Listing.WellLabelled ⟨"a.c", greetingLines⟩ greeting := by
  have hlower : Listing.ofProgram "a.c" greeting = .ok ⟨"a.c", greetingLines⟩ := by
    decide +kernel
  exact ⟨hlower, Listing.ofProgram_wellLabelled hlower⟩

end WordC
