import WordC.Proofs.Stores.Session

/-!
# Slots of parameters and locals

`Declares` says what lowering statements inside a function does to the session (`Lowers.declares`):
which variables are declared, in order and with which symbols. Each of them gets the words below
the ones before it (`Declares.stacked`), and what the lines reach in the frame is the slot of one of
them or one that had a name before (`Declares.staysWithin`).
-/

namespace WordC
open Lowering

/-! ### Slots in the symbol table -/

/-- The slots of the scalars in all scopes are at certain offsets. -/
def SymbolTable.SlotsWithin (table : SymbolTable) (reach : Int16 → Prop) : Prop :=
  ∀ scope ∈ table.globals :: table.scopes, ∀ x symbol, scope.get? x = some symbol →
    ∀ offset, symbol.slot? = some offset → reach offset

namespace SymbolTable

variable {table table' : SymbolTable} {reach reach' : Int16 → Prop} {x : String} {offset : Int16}
  {ty : Ty} {constant : Bool}

/-- A variable in the frame is declared where its name is new. -/
theorem declare_stack_ok (h : table.declare x (.stack offset ty constant) = .ok table') :
    table.current.get? x = none ∧
      table' = table.setCurrent (table.current.insert x (.stack offset ty constant)) :=
  declare_of_ne_function (by simp) h

theorem mem_setCurrent {scope scope' : Scope}
    (h : scope' ∈ (table.setCurrent scope).globals :: (table.setCurrent scope).scopes) :
    scope' = scope ∨ scope' ∈ table.globals :: table.scopes := by
  obtain ⟨globals, scopes⟩ := table
  cases scopes <;> simp [setCurrent] at h ⊢ <;> grind

theorem current_mem : table.current ∈ table.globals :: table.scopes := by
  obtain ⟨globals, scopes⟩ := table
  cases scopes <;> simp [current]

/-- What a name stands for in the current scope it stands for everywhere in it. -/
theorem lookup_of_current {symbol : Symbol} (h : table.current.get? x = some symbol) :
    table.lookup x = some symbol := by
  obtain ⟨globals, scopes⟩ := table
  cases scopes with
  | nil => simpa [lookup, current] using h
  | cons scope outer =>
    have hx : scope.get? x = some symbol := by simpa [current] using h
    simp [lookup, hx]

namespace SlotsWithin

theorem mono (h : table.SlotsWithin reach) (hreach : ∀ offset, reach offset → reach' offset) :
    table.SlotsWithin reach' :=
  fun scope hscope x symbol hx offset ho => hreach offset (h scope hscope x symbol hx offset ho)

theorem of_isSlot (h : table.SlotsWithin reach) (hslot : table.IsSlot offset) : reach offset := by
  obtain ⟨x, symbol, hx, ho⟩ := hslot
  rw [lookup, Option.or_eq_some_iff] at hx
  rcases hx with hlocal | ⟨-, hfile⟩
  · obtain ⟨scope, hscope, hx⟩ := List.exists_of_findSome?_eq_some hlocal
    exact h scope (List.mem_cons_of_mem _ hscope) x symbol hx offset ho
  · exact h table.globals List.mem_cons_self x symbol hfile offset ho

theorem openScope (h : table.SlotsWithin reach) : table.openScope.SlotsWithin reach := by
  intro scope hscope x symbol hx
  rcases List.mem_cons.1 hscope with rfl | hscope
  · exact h _ List.mem_cons_self x symbol hx
  · rcases List.mem_cons.1 hscope with rfl | hscope
    · simp at hx
    · exact h scope (List.mem_cons_of_mem _ hscope) x symbol hx

theorem closeScope (h : table.SlotsWithin reach) : table.closeScope.SlotsWithin reach := by
  intro scope hscope
  rcases List.mem_cons.1 hscope with rfl | hscope
  · exact h _ List.mem_cons_self
  · exact h scope (List.mem_cons_of_mem _ (List.mem_of_mem_tail hscope))

theorem declare (h : table.SlotsWithin reach)
    (ht : table.declare x (.stack offset ty constant) = .ok table')
    (hslot : ∀ o, (Symbol.stack offset ty constant).slot? = some o → reach o) :
    table'.SlotsWithin reach := by
  obtain ⟨-, rfl⟩ := declare_stack_ok ht
  intro scope hscope y symbol hy
  rcases mem_setCurrent hscope with rfl | hscope
  · rw [Scope.get?_insert] at hy
    split at hy
    · cases hy
      exact hslot
    · exact h _ current_mem y symbol hy
  · exact h scope hscope y symbol hy

/-- Outside of functions there are no slots. -/
theorem of_valid (h : table.Valid 0) : table.SlotsWithin fun _ => False := by
  intro scope hscope x symbol hx offset ho
  rw [List.length_eq_zero_iff.1 h.length_scopes, List.mem_singleton] at hscope
  subst hscope
  have hglobal := (h.globals x symbol hx).1
  cases symbol with
  | stack => cases hglobal
  | static => cases ho
  | function => cases ho

end SlotsWithin

end SymbolTable

/-! ### Offsets -/

namespace Lowering

/-- The offset of a local is exact, also at the lowest one that a word can hold. -/
theorem toInt_localOffset {n : Nat} (h : n ≤ 32768) :
    (localOffset n.toUInt16).toInt = -(n : Int) := by
  have hn : n.toUInt16.toNat = n :=
    UInt16.toNat_ofNat_of_lt' (Nat.lt_of_le_of_lt h (by decide))
  have hint : n.toUInt16.toInt16.toInt = (n : Int).bmod 65536 := by
    rw [← Int16.toInt_toBitVec, UInt16.toBitVec_toInt16, BitVec.toInt_eq_toNat_bmod,
      UInt16.toNat_toBitVec, hn]
  rw [localOffset, Int16.toInt_sub, hint, Int16.toInt_zero]
  simp only [Int.bmod]
  omega

theorem toInt_paramOffset? {remaining : Nat} {offset : Int16}
    (h : paramOffset? remaining = some offset) :
    offset.toInt = (wordBytes * remaining + wordBytes : Nat) := by
  unfold paramOffset? at h
  split at h
  · rename_i hlt
    cases h
    exact Int16.toInt_ofNat_of_lt (by simpa using hlt)
  · cases h

/-- A local gets the words below those given so far, which an offset has to reach. -/
theorem place_slot {s : Session} {frame : Frame} {pos : Position} {ty : Ty} {constant : Bool}
    {p : Emission Session Symbol} (hf : s.frame = some frame)
    (h : place pos ty constant s = .ok p) :
    wordBytes * (frame.words + ty.words) ≤ 32768 ∧
      (∃ offset : Int16, p.value = .stack offset ty constant ∧
        offset.toInt = -(wordBytes * (frame.words + ty.words) : Nat)) ∧
      p.state.frame = some { frame with words := frame.words + ty.words } := by
  obtain ⟨bytes, hbytes, rfl⟩ := place_of_some hf h
  unfold Frame.bytes? at hbytes
  split at hbytes
  · rename_i hle
    cases hbytes
    exact ⟨hle, ⟨_, rfl, toInt_localOffset hle⟩, rfl⟩
  · cases hbytes

end Lowering

/-! ### Steps inside a function -/

/-- From the first session the lines are emitted, the variables are declared in order with these
symbols, and the second session is left. -/
inductive Declares : Session → List Line → List (Variable × Symbol) → Session → Prop
  /-- Lines that name nothing of the frame, and labels handed out. -/
  | code (s : Session) {lines : List Line} (n : Nat) (h : StaysWithin (fun _ => False) lines) :
    Declares s lines [] (s.skipLabels n)
  /-- An expression whose register is given back. -/
  | expr {s : Session} {e : Expr} {a : Emission Scratch Register}
    (h : lowerExpr s.symbols e s.scratch = .ok a) : Declares s a.lines [] (s.afterExpr a)
  /-- A variable, whose initial value may be stored. -/
  | var {s : Session} {scratch : Scratch} {pos : Position} {decl : Variable}
    {p : Emission Session Symbol} {table : SymbolTable} {lines : List Line}
    (hp : place pos decl.ty decl.constant { s with scratch } = .ok p)
    (ht : s.symbols.declare decl.name p.value = .ok table)
    (hlines : lines = [] ∨ ∃ address r, storeAddress? decl.name p.value = some address ∧
      lines = [.instruction (.mov address (Operand.register r))]) :
    Declares s lines [(decl, p.value)] ⟨s.scratch, table, p.state.frame⟩
  | append {s t u : Session} {lines lines' : List Line} {locals locals' : List (Variable × Symbol)}
    (h : Declares s lines locals t) (h' : Declares t lines' locals' u) :
    Declares s (lines ++ lines') (locals ++ locals') u
  /-- A block with a scope of its own. -/
  | block {s t : Session} {lines : List Line} {locals : List (Variable × Symbol)}
    (h : Declares { s with symbols := s.symbols.openScope } lines locals t) :
    Declares s lines locals { t with symbols := t.symbols.closeScope }

/-- The symbols put the variables one below the other, under so many words. -/
def IsStacked : Nat → List (Variable × Symbol) → Prop
  | _, [] => True
  | words, (decl, symbol) :: locals =>
    (∃ offset : Int16, symbol = .stack offset decl.ty decl.constant ∧
      offset.toInt = -(wordBytes * (words + decl.ty.words) : Nat)) ∧
      IsStacked (words + decl.ty.words) locals

theorem IsStacked.append : ∀ {words : Nat} {locals locals' : List (Variable × Symbol)},
    IsStacked words locals → IsStacked (words + wordsOf (locals.map Prod.fst)) locals' →
    IsStacked words (locals ++ locals')
  | _, [], _, _, h' => by simpa using h'
  | _, (decl, symbol) :: locals, _, h, h' => by
    refine ⟨h.1, IsStacked.append h.2 ?_⟩
    simpa [Nat.add_assoc] using h'

/-- Each variable lies below the words of those up to it. -/
theorem IsStacked.offset {locals : List (Variable × Symbol)} : ∀ {words j : Nat} {decl : Variable}
    {symbol : Symbol}, IsStacked words locals → locals[j]? = some (decl, symbol) →
    ∃ offset : Int16, symbol = .stack offset decl.ty decl.constant ∧
      offset.toInt =
        -(wordBytes * (words + wordsOf ((locals.map Prod.fst).take (j + 1))) : Nat) := by
  induction locals with
  | nil =>
    intro words j decl symbol h hj
    cases hj
  | cons first locals ih =>
    intro words j decl symbol h hj
    cases j with
    | zero =>
      rw [List.getElem?_cons_zero, Option.some.injEq] at hj
      subst hj
      simpa using h.1
    | succ j =>
      rw [List.getElem?_cons_succ] at hj
      obtain ⟨offset, rfl, ho⟩ := ih h.2 hj
      refine ⟨offset, rfl, ?_⟩
      rw [ho, List.map_cons, List.take_succ_cons, wordsOf_cons, Nat.add_assoc]

namespace Declares

variable {s t : Session} {lines : List Line} {locals : List (Variable × Symbol)}

/-- The frame grows by the words of the variables, which are stacked in it, and stays small enough
for an offset. -/
theorem stacked (h : Declares s lines locals t) : ∀ {frame : Frame}, s.frame = some frame →
    wordBytes * frame.words ≤ 32768 →
    IsStacked frame.words locals ∧
      t.frame = some { frame with words := frame.words + wordsOf (locals.map Prod.fst) } ∧
      wordBytes * (frame.words + wordsOf (locals.map Prod.fst)) ≤ 32768 := by
  induction h with
  | code s n h => exact fun hf hle => ⟨trivial, by simpa using hf, by simpa using hle⟩
  | expr h => exact fun hf hle => ⟨trivial, by simpa using hf, by simpa using hle⟩
  | @var s scratch pos decl p table lines hp ht hlines =>
    intro frame hf hle
    obtain ⟨hfits, hsymbol, hframe⟩ := place_slot (s := { s with scratch }) hf hp
    exact ⟨⟨hsymbol, trivial⟩, by simpa using hframe, by simpa using hfits⟩
  | append h h' ih ih' =>
    intro frame hf hle
    obtain ⟨hstacked, hframe, hfits⟩ := ih hf hle
    obtain ⟨hstacked', hframe', hfits'⟩ := ih' hframe hfits
    simp only [List.map_append, wordsOf_append, ← Nat.add_assoc]
    exact ⟨hstacked.append hstacked', hframe', hfits'⟩
  | block h ih => exact fun hf hle => ih hf hle

/-- What the lines reach in the frame is the slot of one of the variables, or was reached by a name
before. -/
theorem staysWithin (h : Declares s lines locals t) : ∀ {frame : Frame} {reach : Int16 → Prop},
    s.frame = some frame → wordBytes * frame.words ≤ 32768 → s.symbols.SlotsWithin reach →
    (∀ decl symbol offset, (decl, symbol) ∈ locals → symbol.slot? = some offset → reach offset) →
    StaysWithin reach lines ∧ t.symbols.SlotsWithin reach := by
  induction h with
  | code s n h => exact fun _ _ hs _ => ⟨h.mono fun _ => False.elim, hs⟩
  | expr h =>
    exact fun _ _ hs _ => ⟨(lowerExpr_staysWithin _ h).mono fun _ => hs.of_isSlot, hs⟩
  | @var s scratch pos decl p table lines hp ht hlines =>
    intro frame reach hf hle hs hlocals
    obtain ⟨-, ⟨offset, hsymbol, -⟩, -⟩ := place_slot (s := { s with scratch }) hf hp
    have hslot : ∀ o, p.value.slot? = some o → reach o := fun o => hlocals decl p.value o (by simp)
    constructor
    · rcases hlines with rfl | ⟨address, r, haddress, rfl⟩
      · exact .plain rfl
      · exact staysWithin_store haddress hslot r
    · rw [hsymbol] at ht hslot
      exact hs.declare ht hslot
  | append h h' ih ih' =>
    intro frame reach hf hle hs hlocals
    obtain ⟨-, hframe, hfits⟩ := h.stacked hf hle
    obtain ⟨hlines, hmid⟩ := ih hf hle hs fun decl symbol offset hmem =>
      hlocals decl symbol offset (List.mem_append_left _ hmem)
    obtain ⟨hlines', hend⟩ := ih' hframe hfits hmid fun decl symbol offset hmem =>
      hlocals decl symbol offset (List.mem_append_right _ hmem)
    exact ⟨hlines.append hlines', hend⟩
  | block h ih =>
    intro frame reach hf hle hs hlocals
    obtain ⟨hlines, hend⟩ := ih hf hle hs.openScope hlocals
    exact ⟨hlines, hend.closeScope⟩

end Declares

/-- Inside a function variables are declared in order, and nothing else of the frame is reached. -/
theorem Lowers.declares {s t : Session} {lines : List Line} {vars : List (Variable × Symbol)}
    (h : Lowers s lines vars t) (hs : s.frame ≠ none) : Declares s lines vars t := by
  induction h with
  | code s n h => exact .code s n (staysWithin_of_isBare h)
  | expr h => exact .expr h
  | @var s pos decl symbol em h hsymbol =>
    cases hinit : decl.init with
    | none =>
      obtain ⟨p, table, hp, ht, rfl⟩ := lowerVariable_none_ok hinit h
      obtain rfl : symbol = p.value := Option.some.inj (hsymbol.symm.trans (declare_place hp ht).2)
      exact .var hp ht (.inl rfl)
    | some init =>
      obtain ⟨a, p, table, address, ha, hp, ht, haddress, rfl⟩ := lowerVariable_some_ok hinit h
      obtain rfl : symbol = p.value := Option.some.inj (hsymbol.symm.trans (declare_place hp ht).2)
      have hstore := Declares.var (s := s.afterExpr a) hp ht
        (.inr ⟨address, a.value, haddress, rfl⟩)
      exact (Declares.expr ha).append hstore
  | prototype hf ht => exact absurd hf hs
  | append h h' ih ih' => exact (ih hs).append (ih' (mt h.frame.1 hs))
  | block hf h ih => exact .block (ih hs)
  | function hf ht hp hreserve h ih => exact absurd hf hs

end WordC
