import WordC.Proofs.Labels.Lines
import WordC.Token.Scan

/-!
# Words of the assembly text

* `isName`: a letter, then letters, digits and underscores. The names of registers and the generated
  labels are of this form;
* `isLine`: a text without the end of a line;
* `split_eq`: where a text is cut at the first occurrence of a character.
-/

namespace WordC

/-- A letter, then letters, digits and underscores. -/
def isName (x : String) : Bool :=
  match x.toList with
  | c :: cs => c.isAlpha && cs.all Scan.isWordChar
  | [] => false

/-- A text within one line. -/
def isLine (x : String) : Bool := x.toList.all Scan.inLine

theorem isName_iff {x : String} : isName x = true ↔
    ∃ c cs, x.toList = c :: cs ∧ c.isAlpha = true ∧ ∀ d ∈ cs, Scan.isWordChar d = true := by
  unfold isName
  cases hx : x.toList with
  | nil => simp
  | cons c cs => simp

theorem isWordChar_of_isName {x : String} (h : isName x = true) {c : Char} (hc : c ∈ x.toList) :
    Scan.isWordChar c = true := by
  obtain ⟨first, others, hx, hfirst, hothers⟩ := isName_iff.1 h
  rw [hx, List.mem_cons] at hc
  rcases hc with rfl | hc
  · simp [Scan.isWordChar, Char.isAlphanum, hfirst]
  · exact hothers c hc

/-- Punctuation and blanks stand in no name. -/
theorem not_mem_of_isName {x : String} (h : isName x = true) {c : Char}
    (hc : Scan.isWordChar c = false) : c ∉ x.toList := by
  intro hmem
  rw [isWordChar_of_isName h hmem] at hc
  cases hc

theorem isLine_iff {x : String} : isLine x = true ↔ '\n' ∉ x.toList := by
  simp only [isLine, List.all_eq_true, Scan.inLine, ne_eq, decide_eq_true_eq]
  constructor
  · intro h hmem
    exact h '\n' hmem rfl
  · rintro h c hc rfl
    exact h hc

/-! ### Numbers -/

theorem isWordChar_of_isDigit {c : Char} (h : c.isDigit = true) : Scan.isWordChar c = true := by
  simp [Scan.isWordChar, Char.isAlphanum, h]

theorem isDigit_of_isAlpha {c : Char} (h : c.isAlpha = true) : c.isDigit = false := by
  rw [Bool.eq_false_iff]
  intro hdigit
  simp only [Char.isAlpha, Char.isUpper, Char.isLower, Char.isDigit, Bool.or_eq_true,
    Bool.and_eq_true, decide_eq_true_eq, UInt32.le_iff_toNat_le, ge_iff_le] at h hdigit
  -- the letters come behind the digits
  have hnine : '9'.val.toNat = 57 := rfl
  have hupper : 'A'.val.toNat = 65 := rfl
  have hlower : 'a'.val.toNat = 97 := rfl
  omega

theorem isDigit_of_mem_toString {n : Nat} {c : Char} (h : c ∈ (toString n).toList) :
    c.isDigit = true := by
  rw [Nat.toString_eq_repr, Nat.toList_repr] at h
  exact Nat.isDigit_of_mem_toDigits (by decide) (by decide) h

theorem toString_injective {m n : Nat} (h : toString m = toString n) : m = n := by
  have hlist := congrArg String.toList h
  rw [Nat.toString_eq_repr, Nat.toString_eq_repr, Nat.toList_repr, Nat.toList_repr] at hlist
  exact toDigits_injective hlist

theorem not_mem_toString (n : Nat) {c : Char} (hc : c.isDigit = false) :
    c ∉ (toString n).toList := by
  intro hmem
  rw [isDigit_of_mem_toString hmem] at hc
  cases hc

/-! ### Generated labels and registers -/

theorem isName_of_digits {c : Char} {n : Nat} {x : String} (hc : c.isAlpha = true)
    (hx : x.toList = c :: Nat.toDigits 10 n) : isName x = true := by
  refine isName_iff.2 ⟨c, _, hx, hc, fun d hd => ?_⟩
  exact isWordChar_of_isDigit (Nat.isDigit_of_mem_toDigits (by decide) (by decide) hd)

theorem isName_flowLabel (n : Nat) : isName (flowLabel n) = true :=
  isName_of_digits (by decide) (toList_flowLabel n)

theorem isName_stringLabel (n : Nat) : isName (stringLabel n) = true :=
  isName_of_digits (by decide) (toList_stringLabel n)

theorem isName_register (r : Register) : isName r.name = true := by
  cases r with
  | general i =>
    refine isName_of_digits (c := 'r') (n := i.val) (by decide) ?_
    simp [Register.name]
  | sf => decide
  | sp => decide
  | rv => decide

/-! ### Cutting -/

/-- Texts in front of the first occurrence of a character are equal if the wholes are, and so are
the texts behind it. -/
theorem split_eq {sep : Char} : ∀ {a b c d : List Char}, sep ∉ a → sep ∉ c →
    a ++ sep :: b = c ++ sep :: d → a = c ∧ b = d
  | [], _, [], _, _, _, h => ⟨rfl, (List.cons.inj h).2⟩
  | [], _, y :: c, _, _, hc, h => by
    rw [List.nil_append, List.cons_append, List.cons.injEq] at h
    exact absurd h.1 (List.ne_of_not_mem_cons hc)
  | x :: a, _, [], _, ha, _, h => by
    rw [List.nil_append, List.cons_append, List.cons.injEq] at h
    exact absurd h.1.symm (List.ne_of_not_mem_cons ha)
  | x :: a, _, y :: c, _, ha, hc, h => by
    rw [List.cons_append, List.cons_append, List.cons.injEq] at h
    obtain ⟨hac, hbd⟩ :=
      split_eq (List.not_mem_of_not_mem_cons ha) (List.not_mem_of_not_mem_cons hc) h.2
    exact ⟨by rw [h.1, hac], hbd⟩

end WordC
