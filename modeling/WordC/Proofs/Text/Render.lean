import WordC.Proofs.Text.Words

/-!
# What the text of an instruction says

The text of an operand does not tell a label from a register of the same name. `asRead` is the
operand, instruction or line that a reader of the text takes it for: where a label is named like a
register, the register. If the labels are names, the text says no less than that
(`Instruction.asRead_eq_of_text_eq`).
-/

namespace WordC

/-! ### Registers -/

namespace Register

/-- All registers. -/
def all : List Register := (List.range 19).filterMap ofNumber?

theorem mem_all (r : Register) : r ∈ all := by
  refine List.mem_filterMap.2 ⟨r.number, ?_, ofNumber?_number r⟩
  rw [List.mem_range]
  cases r with
  | general i =>
    have hi := i.isLt
    simp only [number, generalCount] at hi ⊢
    omega
  | sf => decide
  | sp => decide
  | rv => decide

/-- The register with a given name. -/
def ofName? (x : String) : Option Register := all.find? fun r => r.name = x

theorem name_of_ofName? {x : String} {r : Register} (h : ofName? x = some r) : r.name = x := by
  simpa using List.find?_some h

@[simp] theorem ofName?_name (r : Register) : ofName? r.name = some r := by
  have hall : ∀ r ∈ all, ofName? r.name = some r := by decide
  exact hall r (mem_all r)

theorem name_injective {r q : Register} (h : r.name = q.name) : r = q := by
  have hread := congrArg ofName? h
  rwa [ofName?_name, ofName?_name, Option.some.injEq] at hread

end Register

/-! ### Reading -/

/-- What a word is read as in the place of an operand. -/
def Operand.ofWord (x : String) : Operand :=
  match Register.ofName? x with
  | some r => .register r
  | none => .label x

/-- What a word in brackets is read as. -/
def Address.ofWord (x : String) : Address :=
  match Register.ofName? x with
  | some r => .register r
  | none => .label x

/-- An address as it is read in assembly text. -/
def Address.asRead : Address → Address
  | .label x => .ofWord x
  | address => address

/-- An operand as it is read in assembly text. -/
def Operand.asRead : Operand → Operand
  | .label x => .ofWord x
  | .memory address => .memory address.asRead
  | operand => operand

/-- An instruction as it is read in assembly text. -/
def Instruction.asRead : Instruction → Instruction
  | .mov target source => .mov target.asRead source.asRead
  | .add target source => .add target source.asRead
  | .sub target source => .sub target source.asRead
  | i => i

/-- A line as it is read in assembly text. -/
def Line.asRead : Line → Line
  | .instruction i => .instruction i.asRead
  | line => line

theorem Operand.text_ofWord (x : String) : (Operand.ofWord x).text = x := by
  unfold ofWord
  split
  · rename_i r hr
    exact Register.name_of_ofName? hr
  · rfl

theorem Address.text_ofWord (x : String) : (Address.ofWord x).text = "[" ++ x ++ "]" := by
  unfold ofWord
  split
  · rename_i r hr
    rw [Address.text, Register.name_of_ofName? hr]
  · rfl

@[simp] theorem Address.text_asRead (address : Address) : address.asRead.text = address.text := by
  cases address with
  | label x => exact text_ofWord x
  | frame offset => rfl
  | register r => rfl

@[simp] theorem Operand.text_asRead (operand : Operand) : operand.asRead.text = operand.text := by
  cases operand with
  | label x => exact text_ofWord x
  | memory address => exact address.text_asRead
  | register r => rfl
  | immediate value => rfl

theorem Instruction.text_asRead (i : Instruction) : i.asRead.text = i.text := by
  cases i <;> simp [asRead, text, operands, mnemonic, operandText]

/-- Reading a line changes nothing about its text. -/
theorem Line.render_asRead (line : Line) : line.asRead.render = line.render := by
  cases line with
  | instruction i => rw [asRead, render, render, i.text_asRead]
  | label name => rfl
  | reserve bytes => rfl
  | string content => rfl

theorem Operand.ofWord_eq_label_iff {x : String} :
    Operand.ofWord x = .label x ↔ Register.ofName? x = none := by
  unfold ofWord
  cases Register.ofName? x <;> simp

theorem Address.ofWord_eq_label_iff {x : String} :
    Address.ofWord x = .label x ↔ Register.ofName? x = none := by
  unfold ofWord
  cases Register.ofName? x <;> simp

/-- An operand is read as it is unless it has a label that is named like a register. -/
theorem Operand.asRead_eq_self_iff {operand : Operand} :
    operand.asRead = operand ↔ ∀ x ∈ operand.reference?.toList, Register.ofName? x = none := by
  cases operand with
  | label x => simp [asRead, reference?, ofWord_eq_label_iff]
  | memory address =>
    cases address with
    | label x => simp [asRead, Address.asRead, reference?, Address.reference?,
        Address.ofWord_eq_label_iff]
    | frame offset => simp [asRead, Address.asRead, reference?, Address.reference?]
    | register r => simp [asRead, Address.asRead, reference?, Address.reference?]
  | register r => simp [asRead, reference?]
  | immediate value => simp [asRead, reference?]

theorem Instruction.asRead_eq_self_iff {i : Instruction} :
    i.asRead = i ↔ ∀ x ∈ i.references, Register.ofName? x = none := by
  cases i with
  | mov target source =>
    rw [asRead, references, List.forall_mem_append, ← Operand.asRead_eq_self_iff,
      ← Operand.asRead_eq_self_iff, mov.injEq]
  | add target source =>
    rw [asRead, references, ← Operand.asRead_eq_self_iff, add.injEq, eq_self, true_and]
  | sub target source =>
    rw [asRead, references, ← Operand.asRead_eq_self_iff, sub.injEq, eq_self, true_and]
  | _ => simp [asRead, references]

theorem Line.asRead_eq_self_iff {line : Line} :
    line.asRead = line ↔ ∀ x ∈ line.references, Register.ofName? x = none := by
  cases line with
  | instruction i => rw [asRead, references, instruction.injEq, Instruction.asRead_eq_self_iff]
  | label name => simp [asRead, references]
  | reserve bytes => simp [asRead, references]
  | string content => simp [asRead, references]

/-- Lines are read as they are exactly if no operand has a label that is named like a register. -/
theorem map_asRead_eq_self_iff {lines : List Line} :
    lines.map Line.asRead = lines ↔ ∀ x ∈ referencesOf lines, Register.ofName? x = none := by
  induction lines with
  | nil => simp
  | cons line lines ih =>
    have hrefs : referencesOf (line :: lines) = line.references ++ referencesOf lines := rfl
    rw [List.map_cons, List.cons.injEq, ih, hrefs, List.forall_mem_append, Line.asRead_eq_self_iff]

/-! ### The forms of operands -/

/-- How an operand looks in assembly text. -/
inductive Shape
  /-- A number with its sign behind a blank. -/
  | frame
  | bracket
  | number
  | word
deriving DecidableEq

/-- The look of a text that is an operand. -/
def Shape.of (text : String) : Shape :=
  if ' ' ∈ text.toList then .frame
  else if '[' ∈ text.toList then .bracket
  else if text.toList.head?.any Char.isDigit then .number
  else .word

theorem Shape.of_name {x : String} (h : isName x = true) : Shape.of x = .word := by
  have hblank : ' ' ∉ x.toList := not_mem_of_isName h (by decide)
  have hopen : '[' ∉ x.toList := not_mem_of_isName h (by decide)
  have hdigit : x.toList.head?.any Char.isDigit = false := by
    obtain ⟨c, cs, hx, hc, -⟩ := isName_iff.1 h
    rw [hx, List.head?_cons, Option.any_some]
    exact isDigit_of_isAlpha hc
  simp [Shape.of, hblank, hopen, hdigit]

theorem Shape.of_toString (n : Nat) : Shape.of (toString n) = .number := by
  have hblank : ' ' ∉ (toString n).toList := not_mem_toString n (by decide)
  have hopen : '[' ∉ (toString n).toList := not_mem_toString n (by decide)
  have hdigit : (toString n).toList.head?.any Char.isDigit = true := by
    cases hn : (toString n).toList with
    | nil =>
      rw [Nat.toString_eq_repr, Nat.toList_repr] at hn
      exact absurd hn Nat.toDigits_ne_nil
    | cons c cs =>
      rw [List.head?_cons, Option.any_some]
      exact isDigit_of_mem_toString (n := n) (hn ▸ List.mem_cons_self)
  simp only [Shape.of, hblank, hopen, if_false, hdigit, if_true]

theorem Shape.of_frame (offset : Int16) : Shape.of (Address.frame offset).text = .frame := by
  have hblank : ' ' ∈ (Address.frame offset).text.toList := by
    rw [Address.text]
    split <;> simp [Register.name]
  rw [Shape.of, if_pos hblank]

theorem Shape.of_bracket {x : String} (h : isName x = true) :
    Shape.of ("[" ++ x ++ "]") = .bracket := by
  have hblank : ' ' ∉ x.toList := not_mem_of_isName h (by decide)
  simp [Shape.of, hblank]

/-- The distance of an offset is written in full. -/
theorem toNat_offsetDistance (offset : Int16) :
    (offsetDistance offset).toNat = offset.toInt.natAbs := by
  have hlow := offset.le_toInt
  have hhigh := offset.toInt_lt
  rw [offsetDistance, Nat.toUInt16_eq, UInt16.toNat_ofNat']
  omega

theorem Address.frame_text_injective {a b : Int16}
    (h : (Address.frame a).text = (Address.frame b).text) : a = b := by
  have hlist := congrArg String.toList h
  have habs : (a < 0 ↔ b < 0) ∧ a.toInt.natAbs = b.toInt.natAbs := by
    rw [← toNat_offsetDistance, ← toNat_offsetDistance]
    by_cases ha : a < 0 <;> by_cases hb : b < 0 <;>
      simp only [Address.text, ha, hb, if_true, if_false, Register.name,
        String.toList_append] at hlist
    · exact ⟨by simp [ha, hb], toString_injective (String.toList_injective (by simpa using hlist))⟩
    · simp at hlist
    · simp at hlist
    · exact ⟨by simp [ha, hb], toString_injective (String.toList_injective (by simpa using hlist))⟩
  rw [Int16.lt_iff_toInt_lt, Int16.lt_iff_toInt_lt, Int16.toInt_zero] at habs
  exact Int16.toInt_inj.1 (by omega)

/-- The names in an operand are names. -/
def Operand.IsNamed (operand : Operand) : Prop := ∀ x ∈ operand.reference?, isName x = true

theorem Operand.isNamed_iff {operand : Operand} :
    operand.IsNamed ↔ ∀ x ∈ operand.reference?.toList, isName x = true := by
  simp only [Operand.IsNamed, Option.mem_toList, Option.mem_def]

/-- What an operand is, given how it looks. -/
inductive Operand.Form (operand : Operand) : Shape → Prop
  /-- A register or a label. -/
  | word (hname : isName operand.text = true) (hread : operand.asRead = .ofWord operand.text) :
    Form operand .word
  | number (value : UInt16) (h : operand = .immediate value) : Form operand .number
  | frame (offset : Int16) (h : operand = .memory (.frame offset)) : Form operand .frame
  /-- What a register or a label points to. -/
  | bracket (x : String) (hx : isName x = true) (htext : operand.text = "[" ++ x ++ "]")
    (hread : operand.asRead = .memory (.ofWord x)) : Form operand .bracket

/-- The look of an operand shows its form. -/
theorem Operand.form {operand : Operand} (h : operand.IsNamed) :
    operand.Form (Shape.of operand.text) := by
  cases operand with
  | register r =>
    rw [Operand.text, Shape.of_name (isName_register r)]
    refine .word (isName_register r) ?_
    simp [asRead, ofWord, Operand.text]
  | label x =>
    rw [Operand.text, Shape.of_name (h x rfl)]
    exact .word (h x rfl) rfl
  | immediate value =>
    rw [Operand.text, Shape.of_toString]
    exact .number value rfl
  | memory address =>
    rw [Operand.text]
    cases address with
    | frame offset =>
      rw [Shape.of_frame]
      exact .frame offset rfl
    | register r =>
      rw [Address.text, Shape.of_bracket (isName_register r)]
      refine .bracket r.name (isName_register r) rfl ?_
      simp [asRead, Address.asRead, Address.ofWord]
    | label x =>
      rw [Address.text, Shape.of_bracket (h x rfl)]
      exact .bracket x (h x rfl) rfl rfl

/-- The text of an operand says what it is read as. -/
theorem Operand.asRead_eq_of_text_eq {a b : Operand} (ha : a.IsNamed) (hb : b.IsNamed)
    (h : a.text = b.text) : a.asRead = b.asRead := by
  -- one text has one look, so both operands are of one form
  have hform := form ha
  have hform' := form hb
  rw [h] at hform
  generalize Shape.of b.text = shape at hform hform'
  cases hform with
  | word hname hread =>
    cases hform' with
    | word hname' hread' => rw [hread, hread', h]
  | number value hvalue =>
    cases hform' with
    | number value' hvalue' =>
      subst hvalue hvalue'
      rw [UInt16.toNat_inj.1 (toString_injective h)]
  | frame offset hoffset =>
    cases hform' with
    | frame offset' hoffset' =>
      subst hoffset hoffset'
      rw [Address.frame_text_injective h]
  | bracket x hx htext hread =>
    cases hform' with
    | bracket x' hx' htext' hread' =>
      rw [htext, htext', String.append_left_inj, String.append_right_inj] at h
      rw [hread, hread', h]

/-- In the text of an operand there are words, blanks, brackets and signs. -/
theorem Operand.not_mem_text {operand : Operand} (h : operand.IsNamed) {c : Char}
    (hword : Scan.isWordChar c = false) (hother : c ∉ [' ', '[', ']', '+', '-']) :
    c ∉ operand.text.toList := by
  have hdigit : c.isDigit = false := by
    rw [Bool.eq_false_iff]
    intro hc
    rw [isWordChar_of_isDigit hc] at hword
    cases hword
  simp only [List.mem_cons, List.not_mem_nil, or_false, not_or] at hother
  have hform := form h
  generalize Shape.of operand.text = shape at hform
  cases hform with
  | word hname hread => exact not_mem_of_isName hname hword
  | number value hvalue =>
    subst hvalue
    exact not_mem_toString _ hdigit
  | frame offset hoffset =>
    subst hoffset
    have hname : c ∉ Register.sf.name.toList := not_mem_of_isName (isName_register .sf) hword
    have hdigits := not_mem_toString (offsetDistance offset).toNat hdigit
    rw [Operand.text, Address.text]
    split
    all_goals
      simp only [String.toList_append, List.mem_append, not_or]
      refine ⟨⟨hname, ?_⟩, hdigits⟩
      simp [hother]
  | bracket x hx htext hread =>
    have hname : c ∉ x.toList := not_mem_of_isName hx hword
    rw [htext]
    simp [hother, hname]

/-! ### Instructions -/

theorem Flag.name_injective {flag flag' : Flag} (h : flag.name = flag'.name) : flag = flag' := by
  cases flag <;> cases flag' <;> simp_all [Flag.name]

/-- The names in an instruction are names. -/
def Instruction.IsNamed (i : Instruction) : Prop :=
  (∀ x ∈ i.jump?, isName x = true) ∧ ∀ x ∈ i.references, isName x = true

/-- Two operands with a comma between them. -/
theorem pair_eq {a b c d : String} (ha : ',' ∉ a.toList) (hc : ',' ∉ c.toList)
    (h : ", ".intercalate [a, b] = ", ".intercalate [c, d]) : a = c ∧ b = d := by
  have hlist := congrArg String.toList h
  simp only [String.intercalate_cons_cons, String.intercalate_singleton, String.toList_append,
    List.append_assoc] at hlist
  obtain ⟨hac, hbd⟩ := split_eq ha hc hlist
  exact ⟨String.toList_injective hac, String.toList_injective (List.cons.inj hbd).2⟩

theorem newline_not_mem_intercalate : ∀ {texts : List String},
    (∀ text ∈ texts, '\n' ∉ text.toList) → '\n' ∉ (", ".intercalate texts).toList
  | [], _ => by simp
  | [text], h => by simpa using h
  | text :: other :: texts, h => by
    rw [List.forall_mem_cons] at h
    have hrest := newline_not_mem_intercalate h.2
    rw [String.intercalate_cons_cons]
    simp only [String.toList_append, List.mem_append, not_or]
    exact ⟨⟨h.1, by decide⟩, hrest⟩

namespace Instruction

theorem blank_not_mem_mnemonic (i : Instruction) : ' ' ∉ i.mnemonic.toList := by
  cases i <;> simp [mnemonic]

/-- The mnemonic is what stands in front of the first blank. -/
theorem toList_text (i : Instruction) :
    ∃ rest, (i.text ++ " ").toList = i.mnemonic.toList ++ ' ' :: rest ∧
      (i.operands ≠ [] → rest = (i.operandText ++ " ").toList) := by
  unfold text
  split
  · rename_i hnil
    exact ⟨[], by simp, fun h => absurd hnil h⟩
  · exact ⟨(i.operandText ++ " ").toList, by simp, fun _ => rfl⟩

theorem mnemonic_eq_of_text_eq {i j : Instruction} (h : i.text = j.text) :
    i.mnemonic = j.mnemonic ∧ ∀ {x y : String} {xs ys : List String},
      i.operands = x :: xs → j.operands = y :: ys → i.operandText = j.operandText := by
  obtain ⟨rest, htext, hrest⟩ := i.toList_text
  obtain ⟨rest', htext', hrest'⟩ := j.toList_text
  rw [h, htext'] at htext
  obtain ⟨hmnemonic, hoperands⟩ := split_eq j.blank_not_mem_mnemonic i.blank_not_mem_mnemonic htext
  refine ⟨(String.toList_injective hmnemonic).symm, fun hi hj => ?_⟩
  rw [hrest (hi ▸ List.cons_ne_nil _ _), hrest' (hj ▸ List.cons_ne_nil _ _)] at hoperands
  exact (String.append_left_inj " ").1 (String.toList_injective hoperands.symm)

theorem comma_not_mem_name (r : Register) : ',' ∉ r.name.toList :=
  not_mem_of_isName (isName_register r) (by decide)

theorem register_eq {r q : Register} (h : ", ".intercalate [r.name] = ", ".intercalate [q.name]) :
    r = q := by
  rw [String.intercalate_singleton, String.intercalate_singleton] at h
  exact Register.name_injective h

/-- Two registers with a comma between them. -/
theorem registers_eq {a b c d : Register}
    (h : ", ".intercalate [a.name, b.name] = ", ".intercalate [c.name, d.name]) :
    a = c ∧ b = d := by
  obtain ⟨hac, hbd⟩ := pair_eq (comma_not_mem_name a) (comma_not_mem_name c) h
  exact ⟨Register.name_injective hac, Register.name_injective hbd⟩

/-- A register and an operand with a comma between them. -/
theorem register_operand_eq {a c : Register} {b d : Operand} (hb : b.IsNamed) (hd : d.IsNamed)
    (h : ", ".intercalate [a.name, b.text] = ", ".intercalate [c.name, d.text]) :
    a = c ∧ b.asRead = d.asRead := by
  obtain ⟨hac, hbd⟩ := pair_eq (comma_not_mem_name a) (comma_not_mem_name c) h
  exact ⟨Register.name_injective hac, Operand.asRead_eq_of_text_eq hb hd hbd⟩

theorem isNamed_mov {a b : Operand} (h : (mov a b).IsNamed) : a.IsNamed ∧ b.IsNamed := by
  rw [Operand.isNamed_iff, Operand.isNamed_iff]
  exact List.forall_mem_append.1 h.2

/-- The text of an instruction says what it is read as. -/
theorem asRead_eq_of_text_eq {i j : Instruction} (hi : i.IsNamed) (hj : j.IsNamed)
    (h : i.text = j.text) : i.asRead = j.asRead := by
  obtain ⟨hm, hoperands⟩ := mnemonic_eq_of_text_eq h
  -- the mnemonics differ unless the instructions are of the same kind
  cases i with
  | push r =>
    cases j with
    | push q => rw [register_eq (hoperands rfl rfl)]
    | _ => simp [mnemonic] at hm
  | pop r =>
    cases j with
    | pop q => rw [register_eq (hoperands rfl rfl)]
    | _ => simp [mnemonic] at hm
  | call r =>
    cases j with
    | call q => rw [register_eq (hoperands rfl rfl)]
    | _ => simp [mnemonic] at hm
  | mov a b =>
    cases j with
    | mov c d =>
      obtain ⟨ha, hb⟩ := isNamed_mov hi
      obtain ⟨hc, hd⟩ := isNamed_mov hj
      obtain ⟨hac, hbd⟩ := pair_eq (Operand.not_mem_text ha (by decide) (by decide))
        (Operand.not_mem_text hc (by decide) (by decide)) (hoperands rfl rfl)
      rw [asRead, asRead, Operand.asRead_eq_of_text_eq ha hc hac,
        Operand.asRead_eq_of_text_eq hb hd hbd]
    | _ => simp [mnemonic] at hm
  | add a b =>
    cases j with
    | add c d =>
      have hb : b.IsNamed := Operand.isNamed_iff.2 hi.2
      have hd : d.IsNamed := Operand.isNamed_iff.2 hj.2
      obtain ⟨hac, hbd⟩ := register_operand_eq hb hd (hoperands rfl rfl)
      rw [asRead, asRead, hac, hbd]
    | _ => simp [mnemonic] at hm
  | sub a b =>
    cases j with
    | sub c d =>
      have hb : b.IsNamed := Operand.isNamed_iff.2 hi.2
      have hd : d.IsNamed := Operand.isNamed_iff.2 hj.2
      obtain ⟨hac, hbd⟩ := register_operand_eq hb hd (hoperands rfl rfl)
      rw [asRead, asRead, hac, hbd]
    | _ => simp [mnemonic] at hm
  | mul a b =>
    cases j with
    | mul c d =>
      obtain ⟨hac, hbd⟩ := registers_eq (hoperands rfl rfl)
      rw [hac, hbd]
    | _ => simp [mnemonic] at hm
  | div a b =>
    cases j with
    | div c d =>
      obtain ⟨hac, hbd⟩ := registers_eq (hoperands rfl rfl)
      rw [hac, hbd]
    | _ => simp [mnemonic] at hm
  | cmp a b =>
    cases j with
    | cmp c d =>
      obtain ⟨hac, hbd⟩ := registers_eq (hoperands rfl rfl)
      rw [hac, hbd]
    | _ => simp [mnemonic] at hm
  | flg r flag =>
    cases j with
    | flg q flag' =>
      obtain ⟨hrq, hflag⟩ := pair_eq (comma_not_mem_name r) (comma_not_mem_name q)
        (hoperands rfl rfl)
      rw [Register.name_injective hrq, Flag.name_injective hflag]
    | _ => simp [mnemonic] at hm
  | jmp x =>
    cases j with
    | jmp y =>
      have hname := hoperands rfl rfl
      rw [operandText, operandText, operands, operands, String.intercalate_singleton,
        String.intercalate_singleton] at hname
      rw [hname]
    | _ => simp [mnemonic] at hm
  | jnz r x =>
    cases j with
    | jnz q y =>
      obtain ⟨hrq, hxy⟩ := pair_eq (comma_not_mem_name r) (comma_not_mem_name q)
        (hoperands rfl rfl)
      rw [Register.name_injective hrq, hxy]
    | _ => simp [mnemonic] at hm
  | ret =>
    cases j with
    | ret => rfl
    | _ => simp [mnemonic] at hm

/-- The end of a line stands in no operand. -/
theorem newline_not_mem_operands {i : Instruction} (hi : i.IsNamed) :
    ∀ text ∈ i.operands, '\n' ∉ text.toList := by
  have hname (r : Register) : '\n' ∉ r.name.toList :=
    not_mem_of_isName (isName_register r) (by decide)
  have hoperand {o : Operand} (ho : o.IsNamed) : '\n' ∉ o.text.toList :=
    Operand.not_mem_text ho (by decide) (by decide)
  have hjump {x : String} (hx : isName x = true) : '\n' ∉ x.toList :=
    not_mem_of_isName hx (by decide)
  cases i with
  | mov a b =>
    obtain ⟨ha, hb⟩ := isNamed_mov hi
    simp [operands, hoperand ha, hoperand hb]
  | add a b =>
    have hb : b.IsNamed := Operand.isNamed_iff.2 hi.2
    simp [operands, hname, hoperand hb]
  | sub a b =>
    have hb : b.IsNamed := Operand.isNamed_iff.2 hi.2
    simp [operands, hname, hoperand hb]
  | flg r flag => cases flag <;> simp [operands, hname, Flag.name]
  | jmp x => simp [operands, hjump (hi.1 x rfl)]
  | jnz r x => simp [operands, hname, hjump (hi.1 x rfl)]
  | ret => simp [operands]
  | _ => simp [operands, hname]

theorem isLine_text {i : Instruction} (hi : i.IsNamed) : isLine i.text = true := by
  have hmnemonic : '\n' ∉ i.mnemonic.toList := by cases i <;> simp [mnemonic]
  have hoperands := newline_not_mem_intercalate (newline_not_mem_operands hi)
  rw [isLine_iff, text]
  split
  · exact hmnemonic
  · simp only [String.toList_append, List.mem_append, not_or]
    exact ⟨⟨hmnemonic, by decide⟩, hoperands⟩

/-- An instruction does not begin with a word that is no mnemonic. -/
theorem text_ne {i : Instruction} {word : String} (hword : ' ' ∉ word.toList)
    (h : i.mnemonic ≠ word) (rest : String) : i.text ≠ word ++ " " ++ rest := by
  intro htext
  obtain ⟨tail, hlist, -⟩ := i.toList_text
  rw [htext] at hlist
  simp only [String.toList_append, List.append_assoc] at hlist
  obtain ⟨heq, -⟩ := split_eq hword i.blank_not_mem_mnemonic hlist
  exact h (String.toList_injective heq.symm)

end Instruction

end WordC
