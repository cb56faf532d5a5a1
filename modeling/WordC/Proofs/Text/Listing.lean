import WordC.Proofs.Text.Render

/-!
# What the text of a listing says

The lines of a listing whose names are names and whose texts are single lines (`Line.IsNamed`) are
told apart by the text, as far as they are read differently: `Listing.text_eq_iff`.
-/

namespace WordC

namespace Line

/-- The names in a line are names, and its text is a single line. -/
def IsNamed : Line → Prop
  | .label x => isName x = true
  | .instruction i => i.IsNamed
  | .reserve _ => True
  | .string content => isLine content = true

theorem isLine_render {line : Line} (h : line.IsNamed) : isLine line.render = true := by
  rw [isLine_iff]
  cases line with
  | label x =>
    have hx : '\n' ∉ x.toList := not_mem_of_isName h (by decide)
    simp [render, hx]
  | instruction i =>
    have hi := isLine_iff.1 (Instruction.isLine_text h)
    simp [render, hi]
  | reserve bytes =>
    have hbytes : '\n' ∉ (toString bytes).toList := not_mem_toString bytes (by decide)
    rw [render, String.toList_append, List.mem_append, not_or]
    exact ⟨by decide, hbytes⟩
  | string content =>
    have hcontent := isLine_iff.1 h
    simp [render, hcontent]

/-- The first character tells a label from the other lines. -/
theorem head?_render (line : Line) :
    line.render.toList.head? = some (if line.label?.isSome then '.' else '\t') := by
  cases line <;> simp [render, label?]

/-- A line that begins with a word which is no mnemonic is no instruction. -/
theorem instruction_ne {line : Line} (i : Instruction) (word rest : String)
    (hline : line.render.toList = '\t' :: (word ++ " " ++ rest).toList) (hword : ' ' ∉ word.toList)
    (h : i.mnemonic ≠ word) : (Line.instruction i).render ≠ line.render := by
  intro heq
  have htext : i.text = word ++ " " ++ rest := by
    have hlist := congrArg String.toList heq
    rw [hline] at hlist
    exact String.toList_injective (by simpa [render] using hlist)
  exact Instruction.text_ne hword h rest htext

theorem instruction_ne_reserve (i : Instruction) (bytes : Nat) :
    (Line.instruction i).render ≠ (Line.reserve bytes).render :=
  instruction_ne i "res" (toString bytes) (by simp [render]) (by decide)
    (by cases i <;> simp [Instruction.mnemonic])

theorem instruction_ne_string (i : Instruction) (content : String) :
    (Line.instruction i).render ≠ (Line.string content).render :=
  instruction_ne i "str" ("\"" ++ content ++ "\"") (by simp [render]) (by decide)
    (by cases i <;> simp [Instruction.mnemonic])

theorem reserve_ne_string (bytes : Nat) (content : String) :
    (Line.reserve bytes).render ≠ (Line.string content).render := by
  intro h
  have hlist := congrArg (fun x => x.toList[1]?) h
  simp [render] at hlist

/-- The text of a line says what it is read as. -/
theorem asRead_eq_of_render_eq {line line' : Line} (hl : line.IsNamed) (hl' : line'.IsNamed)
    (h : line.render = line'.render) : line.asRead = line'.asRead := by
  -- labels begin with a dot; the word behind the tab tells the other lines apart
  have hhead := congrArg (fun x => x.toList.head?) h
  simp only [head?_render] at hhead
  cases line with
  | label x =>
    cases line' with
    | label y =>
      rw [render, render, String.append_left_inj, String.append_right_inj] at h
      rw [h]
    | _ => simp [label?] at hhead
  | instruction i =>
    cases line' with
    | label y => simp [label?] at hhead
    | instruction j =>
      rw [render, render, String.append_right_inj] at h
      rw [asRead, asRead, Instruction.asRead_eq_of_text_eq hl hl' h]
    | reserve bytes => exact absurd h (instruction_ne_reserve i bytes)
    | string content => exact absurd h (instruction_ne_string i content)
  | reserve bytes =>
    cases line' with
    | label y => simp [label?] at hhead
    | instruction j => exact absurd h.symm (instruction_ne_reserve j bytes)
    | reserve bytes' =>
      rw [render, render, String.append_right_inj] at h
      rw [toString_injective h]
    | string content => exact absurd h (reserve_ne_string bytes content)
  | string content =>
    cases line' with
    | label y => simp [label?] at hhead
    | instruction j => exact absurd h.symm (instruction_ne_string j content)
    | reserve bytes => exact absurd h.symm (reserve_ne_string bytes content)
    | string content' =>
      rw [render, render, String.append_left_inj, String.append_right_inj] at h
      rw [h]

end Line

namespace Listing

/-- Lines of text within one line each can be told apart. -/
theorem unlines_injective : ∀ {texts texts' : List String}, (∀ x ∈ texts, isLine x = true) →
    (∀ x ∈ texts', isLine x = true) → unlines texts = unlines texts' → texts = texts'
  | [], [], _, _, _ => rfl
  | [], _ :: _, _, _, h => by simp [unlines, String.join_cons] at h
  | _ :: _, [], _, _, h => by simp [unlines, String.join_cons] at h
  | x :: texts, y :: texts', hx, hy, h => by
    rw [List.forall_mem_cons] at hx hy
    have hlist := congrArg String.toList h
    simp only [unlines, List.map_cons, String.join_cons, String.toList_append,
      List.append_assoc] at hlist
    obtain ⟨hfirst, hrest⟩ := split_eq (isLine_iff.1 hx.1) (isLine_iff.1 hy.1) hlist
    rw [String.toList_injective hfirst,
      unlines_injective hx.2 hy.2 (String.toList_injective hrest)]

theorem map_asRead_eq : ∀ {lines lines' : List Line}, (∀ line ∈ lines, line.IsNamed) →
    (∀ line ∈ lines', line.IsNamed) → lines.map Line.render = lines'.map Line.render →
    lines.map Line.asRead = lines'.map Line.asRead
  | [], [], _, _, _ => rfl
  | [], _ :: _, _, _, h => by simp at h
  | _ :: _, [], _, _, h => by simp at h
  | line :: lines, line' :: lines', hl, hl', h => by
    rw [List.forall_mem_cons] at hl hl'
    rw [List.map_cons, List.map_cons, List.cons.injEq] at h
    rw [List.map_cons, List.map_cons, Line.asRead_eq_of_render_eq hl.1 hl'.1 h.1,
      map_asRead_eq hl.2 hl'.2 h.2]

/-- Listings of one source have the same text exactly when their lines are read the same. -/
theorem text_eq_iff {file : String} {lines lines' : List Line} (hl : ∀ line ∈ lines, line.IsNamed)
    (hl' : ∀ line ∈ lines', line.IsNamed) :
    (Listing.mk file lines).text = (Listing.mk file lines').text ↔
      lines.map Line.asRead = lines'.map Line.asRead := by
  constructor
  · intro h
    rw [text, text, String.append_right_inj] at h
    have hrender : lines.map Line.render = lines'.map Line.render := by
      refine unlines_injective ?_ ?_ h
      · simpa using fun line hline => Line.isLine_render (hl line hline)
      · simpa using fun line hline => Line.isLine_render (hl' line hline)
    exact map_asRead_eq hl hl' hrender
  · intro h
    have hrender : lines.map Line.render = lines'.map Line.render := by
      have hread := congrArg (List.map Line.render) h
      simpa only [List.map_map, Function.comp_def, Line.render_asRead] using hread
    rw [text, text, hrender]

end Listing

end WordC
