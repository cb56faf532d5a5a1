import WordC.Lowering.Expr
import WordC.Proofs.Machine.Run

/-!
# Labels, jumps and references

A line defines a name (`labelsOf`), jumps to names (`jumpsOf`) or has names in its operands
(`referencesOf`). Generated names are `flowLabel n` and `stringLabel n`; they are distinct, and
`isGeneratedLabel` recognizes them.
-/

namespace WordC

/-! ### Jumps and references -/

/-- The name that an instruction may jump to. -/
def Instruction.jump? : Instruction → Option String
  | .jmp name | .jnz _ name => some name
  | _ => none

/-- The name in an address. -/
def Address.reference? : Address → Option String
  | .label name => some name
  | _ => none

/-- The name in an operand, which is a label or an address in memory. -/
def Operand.reference? : Operand → Option String
  | .label name => some name
  | .memory address => address.reference?
  | _ => none

/-- The names in the operands of an instruction. -/
def Instruction.references : Instruction → List String
  | .mov target source => target.reference?.toList ++ source.reference?.toList
  | .add _ source | .sub _ source => source.reference?.toList
  | _ => []

/-- The name that a line may jump to. -/
def Line.jump? : Line → Option String
  | .instruction i => i.jump?
  | _ => none

/-- The names in the operands of a line. -/
def Line.references : Line → List String
  | .instruction i => i.references
  | _ => []

/-- The targets of the jumps in a stretch of lines, in order. -/
def jumpsOf (lines : List Line) : List String := lines.filterMap Line.jump?

/-- The names in the operands of a stretch of lines, in order. -/
def referencesOf (lines : List Line) : List String := lines.flatMap Line.references

section Lists

variable (lines lines' : List Line) (line : Line) (name : String) (i : Instruction)
  (code : List Instruction)

@[simp] theorem labelsOf_nil : labelsOf [] = [] := rfl

@[simp] theorem labelsOf_label_cons :
    labelsOf (.label name :: lines) = name :: labelsOf lines := rfl

@[simp] theorem labelsOf_instruction_cons :
    labelsOf (.instruction i :: lines) = labelsOf lines := rfl

@[simp] theorem jumpsOf_nil : jumpsOf [] = [] := rfl

@[simp] theorem jumpsOf_append : jumpsOf (lines ++ lines') = jumpsOf lines ++ jumpsOf lines' :=
  List.filterMap_append

@[simp] theorem jumpsOf_label_cons : jumpsOf (.label name :: lines) = jumpsOf lines := rfl

@[simp] theorem jumpsOf_instruction_cons :
    jumpsOf (.instruction i :: lines) = i.jump?.toList ++ jumpsOf lines := by
  cases h : i.jump? with
  | none => simp [jumpsOf, Line.jump?, h]
  | some name => simp [jumpsOf, Line.jump?, h]

@[simp] theorem referencesOf_nil : referencesOf [] = [] := rfl

@[simp] theorem referencesOf_append :
    referencesOf (lines ++ lines') = referencesOf lines ++ referencesOf lines' :=
  List.flatMap_append

@[simp] theorem referencesOf_label_cons :
    referencesOf (.label name :: lines) = referencesOf lines := rfl

@[simp] theorem referencesOf_instruction_cons :
    referencesOf (.instruction i :: lines) = i.references ++ referencesOf lines := rfl

@[simp] theorem labelsOf_map_instruction : labelsOf (code.map .instruction) = [] := by
  induction code with
  | nil => rfl
  | cons i code ih => exact ih

@[simp] theorem jumpsOf_map_instruction :
    jumpsOf (code.map .instruction) = code.filterMap Instruction.jump? := List.filterMap_map

@[simp] theorem referencesOf_map_instruction :
    referencesOf (code.map .instruction) = code.flatMap Instruction.references :=
  List.flatMap_map _ _ _

end Lists

/-- Is the line an instruction? -/
def Line.isInstruction : Line → Bool
  | .instruction _ => true
  | _ => false

/-- Is the line a label or an instruction? -/
def Line.isCode : Line → Bool
  | .label _ | .instruction _ => true
  | .reserve _ | .string _ => false

theorem all_isInstruction_map (code : List Instruction) :
    (code.map Line.instruction).all Line.isInstruction = true := by
  simp [Line.isInstruction]

theorem exists_map_instruction : ∀ {lines : List Line}, lines.all Line.isInstruction = true →
    ∃ code : List Instruction, lines = code.map .instruction
  | [], _ => ⟨[], rfl⟩
  | line :: lines, h => by
    rw [List.all_cons, Bool.and_eq_true] at h
    obtain ⟨code, rfl⟩ := exists_map_instruction h.2
    cases line with
    | instruction i => exact ⟨i :: code, rfl⟩
    | _ => exact absurd h.1 Bool.false_ne_true

/-- Neither a jump nor a reference to a name. -/
def Instruction.isPlain (i : Instruction) : Bool := i.jump?.isNone && i.references.isEmpty

theorem jumpsOf_of_isPlain {code : List Instruction} (h : code.all Instruction.isPlain = true) :
    jumpsOf (code.map .instruction) = [] := by
  rw [jumpsOf_map_instruction, List.filterMap_eq_nil_iff]
  intro i hi
  have hplain := List.all_eq_true.1 h i hi
  simp only [Instruction.isPlain, Bool.and_eq_true, Option.isNone_iff_eq_none] at hplain
  exact hplain.1

theorem referencesOf_of_isPlain {code : List Instruction}
    (h : code.all Instruction.isPlain = true) : referencesOf (code.map .instruction) = [] := by
  rw [referencesOf_map_instruction, List.flatMap_eq_nil_iff]
  intro i hi
  have hplain := List.all_eq_true.1 h i hi
  simp only [Instruction.isPlain, Bool.and_eq_true, List.isEmpty_iff] at hplain
  exact hplain.2

/-! ### Jumps -/

/-- The jumps of the lines go to labels among them, or to one of the exits. -/
def JumpsInside (exits : List String) (lines : List Line) : Prop :=
  ∀ x ∈ jumpsOf lines, x ∈ labelsOf lines ∨ x ∈ exits

namespace JumpsInside

variable {exits exits' : List String} {lines lines' : List Line}

theorem plain (h : jumpsOf lines = []) : JumpsInside exits lines := by
  simp [JumpsInside, h]

theorem append (h : JumpsInside exits lines) (h' : JumpsInside exits lines') :
    JumpsInside exits (lines ++ lines') := by
  intro x hx
  rw [jumpsOf_append, List.mem_append] at hx
  rw [labelsOf_append, List.mem_append]
  rcases hx with hx | hx
  · exact (h x hx).imp_left .inl
  · exact (h' x hx).imp_left .inr

theorem mono (h : JumpsInside exits lines) (hexits : ∀ x ∈ exits, x ∈ exits') :
    JumpsInside exits' lines :=
  fun x hx => (h x hx).imp_right (hexits x)

theorem weaken (h : JumpsInside [] lines) : JumpsInside exits lines :=
  h.mono (List.forall_mem_nil _)

/-- The exits are labels of the lines, so there is none left. -/
theorem close (h : JumpsInside exits lines) (hexits : ∀ x ∈ exits, x ∈ labelsOf lines) :
    JumpsInside [] lines :=
  fun x hx => .inl ((h x hx).elim id (hexits x))

end JumpsInside

theorem jumpsInside_nil {lines : List Line} :
    JumpsInside [] lines ↔ ∀ x ∈ jumpsOf lines, x ∈ labelsOf lines := by
  simp [JumpsInside]

/-! ### Generated names -/

theorem toDigits_injective {m n : Nat} (h : Nat.toDigits 10 m = Nat.toDigits 10 n) : m = n := by
  rw [← @Nat.ofDigitChars_ten_toDigits m, ← @Nat.ofDigitChars_ten_toDigits n, h]

theorem toList_flowLabel (n : Nat) : (flowLabel n).toList = 'L' :: Nat.toDigits 10 n := by
  simp [flowLabel]

theorem toList_stringLabel (n : Nat) : (stringLabel n).toList = 'S' :: Nat.toDigits 10 n := by
  simp [stringLabel]

theorem flowLabel_injective : Function.Injective flowLabel := by
  intro m n h
  have hlist := congrArg String.toList h
  rw [toList_flowLabel, toList_flowLabel, List.cons.injEq] at hlist
  exact toDigits_injective hlist.2

theorem stringLabel_injective : Function.Injective stringLabel := by
  intro m n h
  have hlist := congrArg String.toList h
  rw [toList_stringLabel, toList_stringLabel, List.cons.injEq] at hlist
  exact toDigits_injective hlist.2

theorem flowLabel_ne_stringLabel (m n : Nat) : flowLabel m ≠ stringLabel n := by
  intro h
  have hlist := congrArg String.toList h
  rw [toList_flowLabel, toList_stringLabel, List.cons.injEq] at hlist
  exact absurd hlist.1 (by decide)

theorem all_isDigit_toDigits (n : Nat) : (Nat.toDigits 10 n).all Char.isDigit = true := by
  rw [List.all_eq_true]
  intro c hc
  exact Nat.isDigit_of_mem_toDigits (by decide) (by decide) hc

@[simp] theorem isGeneratedLabel_flowLabel (n : Nat) : isGeneratedLabel (flowLabel n) = true := by
  simp [isGeneratedLabel, toList_flowLabel, Nat.toDigits_ne_nil, all_isDigit_toDigits]

@[simp] theorem isGeneratedLabel_stringLabel (n : Nat) :
    isGeneratedLabel (stringLabel n) = true := by
  simp [isGeneratedLabel, toList_stringLabel, Nat.toDigits_ne_nil, all_isDigit_toDigits]

end WordC
