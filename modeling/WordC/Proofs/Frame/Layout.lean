import Mathlib.Order.Interval.Set.Disjoint
import WordC.Compile
import WordC.Proofs.Frame.Session
import WordC.Proofs.Labels.Program

/-!
# Layout of frames

The frame pointer of a function points at the saved one, with the return address above it. Above
these lie the parameters, the last one lowest, and below the frame pointer the locals, each below
the ones declared before it, also those of blocks that were left. Room for all locals is made right
behind the start of the function.

* `FrameLayout`: what this says about a definition and its lines;
* `lowerStmt_frameLayout`: the lines of a definition have this layout;
* `Listing.ofProgram_frameLayout`: so have those of each definition of a program.
-/

namespace WordC
open Lowering

/-! ### Places in a frame -/

/-- The bytes of so many words from an offset on. -/
def bytesAt (offset : Int) (words : Nat) : Set Int := Set.Ico offset (offset + wordBytes * words)

/-- Where parameter `i` of `n` is. -/
def paramPlace (n i : Nat) : Int := wordBytes * ((n : Int) - i) + wordBytes

/-- Where variable `j` of a function is: below the words of the variables up to it. -/
def localPlace (decls : List Variable) (j : Nat) : Int :=
  -(wordBytes * wordsOf (decls.take (j + 1)) : Nat)

/-- The bytes of the parameters. -/
def paramBytes (params : List Param) : List (Set Int) :=
  params.mapIdx fun i _ => bytesAt (paramPlace params.length i) 1

/-- The bytes of the variables. -/
def localBytes (decls : List Variable) : List (Set Int) :=
  decls.mapIdx fun j decl => bytesAt (localPlace decls j) decl.ty.words

/-- Two stretches are disjoint if one ends where the other has not begun. -/
theorem disjoint_bytesAt {offset offset' : Int} {words : Nat} (words' : Nat)
    (h : offset + wordBytes * words ≤ offset') :
    Disjoint (bytesAt offset words) (bytesAt offset' words') := by
  rw [bytesAt, bytesAt, Set.Ico_disjoint_Ico]
  exact (min_le_left _ _).trans (h.trans (le_max_right _ _))

theorem wordsOf_take_succ {decls : List Variable} {j : Nat} (h : j < decls.length) :
    wordsOf (decls.take (j + 1)) = wordsOf (decls.take j) + decls[j].ty.words := by
  rw [List.take_succ_eq_append_getElem h, wordsOf_append, wordsOf_cons, wordsOf_nil, Nat.add_zero]

theorem wordsOf_take_mono (decls : List Variable) {j k : Nat} (h : j ≤ k) :
    wordsOf (decls.take j) ≤ wordsOf (decls.take k) := by
  obtain ⟨n, rfl⟩ := Nat.exists_eq_add_of_le h
  rw [List.take_add, wordsOf_append]
  exact Nat.le_add_right _ _

theorem wordsOf_take_le (decls : List Variable) (j : Nat) :
    wordsOf (decls.take j) ≤ wordsOf decls := by
  have hle := wordsOf_take_mono decls (Nat.le_max_left j decls.length)
  rwa [List.take_of_length_le (Nat.le_max_right j decls.length)] at hle

/-- The words of a variable end where those of the variables before it begin. -/
theorem localPlace_add {decls : List Variable} {j : Nat} (h : j < decls.length) :
    localPlace decls j + wordBytes * decls[j].ty.words =
      -(wordBytes * wordsOf (decls.take j) : Nat) := by
  rw [localPlace, wordsOf_take_succ h]
  push_cast
  ring

theorem pairwise_paramBytes (params : List Param) : (paramBytes params).Pairwise Disjoint := by
  rw [List.pairwise_iff_getElem]
  intro i j hi hj hij
  simp only [paramBytes, List.getElem_mapIdx]
  -- later parameters are below earlier ones
  refine (disjoint_bytesAt 1 ?_).symm
  simp only [paramPlace, wordBytes]
  omega

theorem pairwise_localBytes (decls : List Variable) : (localBytes decls).Pairwise Disjoint := by
  rw [List.pairwise_iff_getElem]
  intro i j hi hj hij
  simp only [localBytes, List.getElem_mapIdx]
  refine (disjoint_bytesAt _ ?_).symm
  have hmono := wordsOf_take_mono decls hij
  rw [localPlace_add, localPlace, Int.neg_le_neg_iff, Nat.cast_le]
  exact Nat.mul_le_mul_left wordBytes hmono

/-- The saved frame pointer with the return address, the parameters and the variables are apart from
each other. -/
theorem pairwise_frameBytes (params : List Param) (decls : List Variable) :
    (bytesAt 0 2 :: (paramBytes params ++ localBytes decls)).Pairwise Disjoint := by
  have hparam : ∀ a ∈ paramBytes params, ∃ offset : Int, 4 ≤ offset ∧ a = bytesAt offset 1 := by
    intro a ha
    obtain ⟨i, hi, rfl⟩ := List.mem_mapIdx.1 ha
    refine ⟨_, ?_, rfl⟩
    simp only [paramPlace, wordBytes]
    omega
  have hlocal : ∀ a ∈ localBytes decls, ∃ offset words, a = bytesAt offset words ∧
      offset + wordBytes * words ≤ 0 := by
    intro a ha
    obtain ⟨j, hj, rfl⟩ := List.mem_mapIdx.1 ha
    refine ⟨_, _, rfl, ?_⟩
    rw [localPlace_add]
    omega
  refine List.pairwise_cons.2 ⟨fun a ha => ?_, List.pairwise_append.2
    ⟨pairwise_paramBytes params, pairwise_localBytes decls, fun a ha b hb => ?_⟩⟩
  · rcases List.mem_append.1 ha with ha | ha
    · obtain ⟨offset, hoffset, rfl⟩ := hparam a ha
      exact disjoint_bytesAt 1 (by simpa [wordBytes] using hoffset)
    · obtain ⟨offset, words, rfl, hoffset⟩ := hlocal a ha
      exact (disjoint_bytesAt 2 hoffset).symm
  · obtain ⟨offset, hoffset, rfl⟩ := hparam a ha
    obtain ⟨offset', words, rfl, hoffset'⟩ := hlocal b hb
    exact (disjoint_bytesAt 1 (hoffset'.trans (by omega))).symm

/-- The place of a parameter or of a scalar variable. -/
def IsScalarPlace (params : List Param) (decls : List Variable) (offset : Int16) : Prop :=
  (∃ i < params.length, offset.toInt = paramPlace params.length i) ∨
    ∃ j decl, decls[j]? = some decl ∧ decl.ty.isArray = false ∧ offset.toInt = localPlace decls j

theorem paramPlace_mem {n i : Nat} (h : i < n) :
    4 ≤ paramPlace n i ∧ paramPlace n i ≤ 2 * n + 2 := by
  simp only [paramPlace, wordBytes]
  omega

theorem localPlace_mem {decls : List Variable} {j : Nat} (h : j < decls.length) :
    -(wordBytes * wordsOf decls : Nat) ≤ localPlace decls j ∧ localPlace decls j ≤ -2 := by
  have hle := wordsOf_take_le decls (j + 1)
  have hone := decls[j].ty.one_le_words
  have hsucc := wordsOf_take_succ h
  simp only [localPlace, wordBytes]
  omega

/-- Such a place is among the bytes of the locals or among those of the parameters. -/
theorem IsScalarPlace.range {params : List Param} {decls : List Variable} {offset : Int16}
    (h : IsScalarPlace params decls offset) :
    -(wordBytes * wordsOf decls : Nat) ≤ offset.toInt ∧ offset.toInt ≤ -2 ∨
      4 ≤ offset.toInt ∧ offset.toInt ≤ 2 * params.length + 2 := by
  rcases h with ⟨i, hi, hoffset⟩ | ⟨j, decl, hj, -, hoffset⟩
  · rw [hoffset]
    exact .inr (paramPlace_mem hi)
  · rw [hoffset]
    exact .inl (localPlace_mem (List.getElem?_eq_some_iff.1 hj).1)

/-! ### Parameters -/

namespace Lowering

theorem toInt_paramOffset?_eq {n : Nat} {offset : Int16} (h : paramOffset? (n + 1) = some offset) :
    offset.toInt = paramPlace (n + 1) 0 := by
  rw [toInt_paramOffset? h, paramPlace]
  push_cast
  ring

theorem paramPlace_succ (n i : Nat) : paramPlace (n + 1) (i + 1) = paramPlace n i := by
  simp only [paramPlace]
  push_cast
  ring

/-- A later declaration leaves what a name of the same scope stands for. -/
theorem declareParams_current {pos : Position} {function x : String} {symbol : Symbol} :
    ∀ {params : List Param} {s : Session} {em : Emission Session Unit},
    declareParams pos function params s = .ok em → s.symbols.current.get? x = some symbol →
    em.state.symbols.current.get? x = some symbol
  | [], _, _, h, hx => by
    rw [declareParams_nil_ok h]
    exact hx
  | param :: params, s, _, h, hx => by
    obtain ⟨offset, table, ho, ht, h⟩ := declareParams_cons_ok h
    obtain ⟨hnew, rfl⟩ := SymbolTable.declare_stack_ok ht
    refine declareParams_current h ?_
    rw [SymbolTable.current_setCurrent, Scope.get?_insert, if_neg, hx]
    rintro rfl
    rw [hnew] at hx
    cases hx

/-- The name of each parameter stands for its place. -/
theorem declareParams_lookup {pos : Position} {function : String} :
    ∀ {params : List Param} {s : Session} {em : Emission Session Unit},
    declareParams pos function params s = .ok em → ∀ i param, params[i]? = some param →
    ∃ offset : Int16, em.state.symbols.lookup param.name = some (.stack offset param.ty false) ∧
      offset.toInt = paramPlace params.length i
  | [], _, _, _, i, _, hi => by simp at hi
  | first :: params, s, _, h, i, param, hi => by
    obtain ⟨offset, table, ho, ht, h⟩ := declareParams_cons_ok h
    obtain ⟨-, rfl⟩ := SymbolTable.declare_stack_ok ht
    cases i with
    | zero =>
      rw [List.getElem?_cons_zero, Option.some.injEq] at hi
      subst hi
      refine ⟨offset, SymbolTable.lookup_of_current (declareParams_current h ?_),
        toInt_paramOffset?_eq ho⟩
      rw [SymbolTable.current_setCurrent, Scope.get?_insert, if_pos rfl]
    | succ i =>
      rw [List.getElem?_cons_succ] at hi
      obtain ⟨offset, hlookup, hoffset⟩ := declareParams_lookup h i param hi
      exact ⟨offset, hlookup, by rw [hoffset, List.length_cons, paramPlace_succ]⟩

/-- Parameters add their places to the slots. -/
theorem declareParams_slotsWithin {pos : Position} {function : String} {reach : Int16 → Prop} :
    ∀ {params : List Param} {s : Session} {em : Emission Session Unit},
    declareParams pos function params s = .ok em → s.symbols.SlotsWithin reach →
    (∀ i < params.length, ∀ offset : Int16, offset.toInt = paramPlace params.length i →
      reach offset) → em.state.symbols.SlotsWithin reach
  | [], _, _, h, hs, _ => by
    rw [declareParams_nil_ok h]
    exact hs
  | param :: params, s, _, h, hs, hreach => by
    obtain ⟨offset, table, ho, ht, h⟩ := declareParams_cons_ok h
    have hfirst : reach offset := hreach 0 (Nat.zero_lt_succ _) offset (toInt_paramOffset?_eq ho)
    refine declareParams_slotsWithin h (hs.declare ht fun o hslot => ?_) fun i hi o hoffset => ?_
    · simp only [Symbol.slot?, Option.ite_none_left_eq_some, Option.some.injEq] at hslot
      exact hslot.2 ▸ hfirst
    · refine hreach (i + 1) (Nat.succ_lt_succ hi) o ?_
      rw [hoffset, List.length_cons, paramPlace_succ]

/-! ### Reservations -/

/-- Room is made for the bytes of the locals, if there are any. -/
def IsRoomFor (bytes : Nat) (room : List Instruction) : Prop :=
  bytes = 0 ∧ room = [] ∨
    0 < bytes ∧ ∃ value : UInt16, value.toNat = bytes ∧ room = [.sub .sp (.immediate value)]

theorem frameOffsetsOf_room {bytes : Nat} {room : List Instruction} (h : IsRoomFor bytes room) :
    frameOffsetsOf ((prologue ++ room).map .instruction) = [] := by
  rcases h with ⟨-, rfl⟩ | ⟨-, value, -, rfl⟩ <;> rfl

open Emitter in
/-- When an offset reaches all locals, leaving the function gives room for their bytes. -/
theorem leaveFunction_isRoomFor {s : Session} {frame : Frame} (pos : Position)
    (hf : s.frame = some frame) (hle : wordBytes * frame.words ≤ 32768) :
    ∃ r, leaveFunction pos s = .ok r ∧ IsRoomFor (wordBytes * frame.words) r.value := by
  have hvalue : (wordBytes * frame.words).toUInt16.toNat = wordBytes * frame.words :=
    UInt16.toNat_ofNat_of_lt' (Nat.lt_of_le_of_lt hle (by decide))
  have hbytes : frame.bytes? = some (wordBytes * frame.words).toUInt16 := if_pos hle
  by_cases hzero : frame.words = 0
  · refine ⟨⟨[], [], ⟨s.scratch, s.symbols.closeAll, none⟩⟩, ?_, .inl ⟨by simp [hzero], rfl⟩⟩
    refine bind_eq_ok_iff.2 ⟨_, _, get_eq_ok_iff.2 rfl, bind_eq_ok_iff.2
      ⟨_, ⟨[], [], _⟩, modify_eq_ok_iff.2 rfl, ?_, rfl⟩, rfl⟩
    simp only [hf, hzero, if_true, pure_eq_ok_iff]
  · refine ⟨⟨reservation _, [], ⟨s.scratch, s.symbols.closeAll, none⟩⟩, ?_,
      .inr ⟨Nat.mul_pos (by decide) (Nat.pos_of_ne_zero hzero), _, hvalue, rfl⟩⟩
    refine bind_eq_ok_iff.2 ⟨_, _, get_eq_ok_iff.2 rfl, bind_eq_ok_iff.2
      ⟨_, ⟨reservation _, [], _⟩, modify_eq_ok_iff.2 rfl, ?_, rfl⟩, rfl⟩
    simp only [hf, hzero, if_false, hbytes, pure_eq_ok_iff]

/-- When the parameters and the body of a function are lowered, the variables are at their places,
and an offset reaches all of them. -/
theorem lowerItems_places {pos : Position} {head : Signature} {body : Stmt} {s : Session}
    {p b : Emission Session Unit} (hp : enterFunction pos head s = .ok p)
    (hb : lowerItems body.items p.state = .ok b) :
    b.state.frame = some ⟨head.name, wordsOf body.decls⟩ ∧
      wordBytes * wordsOf body.decls ≤ 32768 ∧
      ∃ locals, (∀ var ∈ locals, DeclaredIn (Visits p.state body.items) b.lines var) ∧
        Lowers p.state b.lines locals b.state ∧ Declares p.state b.lines locals b.state ∧
        locals.map Prod.fst = body.decls ∧
        ∀ j decl symbol, locals[j]? = some (decl, symbol) → ∃ offset : Int16,
          symbol = .stack offset decl.ty decl.constant ∧
            offset.toInt = localPlace body.decls j := by
  obtain ⟨-, -, hframe⟩ := declareParams_ok (enterFunction_ok hp)
  have hinside : p.state.frame ≠ none := by simp [hframe]
  obtain ⟨locals, hdecls, hdeclared, hlowers⟩ := lowerItems_lowers hb
  have hrun := hlowers.declares hinside
  obtain ⟨hstacked, hend, hfits⟩ := hrun.stacked hframe (by simp)
  -- inside a function there are no others, so all variables of the body are its own
  have hnone := (lowerItems_emits hb).definitions_eq_nil hinside
  rw [Stmt.outerDeclsOfAll_eq hnone, Stmt.declsOfAll_items] at hdecls
  rw [hdecls, Nat.zero_add] at hend hfits
  refine ⟨hend, hfits, locals, hdeclared, hlowers, hrun, hdecls, fun j decl symbol hj => ?_⟩
  obtain ⟨offset, rfl, hoffset⟩ := hstacked.offset hj
  rw [hdecls, Nat.zero_add] at hoffset
  exact ⟨offset, rfl, hoffset⟩

/-- What the body of a function reaches in the frame is the place of a parameter or of a scalar
variable. -/
theorem lowerItems_staysWithin {pos : Position} {head : Signature} {body : Stmt} {s : Session}
    {p b : Emission Session Unit} (hs : s.symbols.Valid 0)
    (hp : enterFunction pos head s = .ok p) (hb : lowerItems body.items p.state = .ok b) :
    StaysWithin (IsScalarPlace head.params body.decls) b.lines := by
  obtain ⟨-, -, locals, -, -, hrun, hdecls, hplaces⟩ := lowerItems_places hp hb
  obtain ⟨-, -, hframe⟩ := declareParams_ok (enterFunction_ok hp)
  -- outside of functions nothing is in a frame, so the parameters come first
  have houtside := (SymbolTable.SlotsWithin.of_valid hs).openScope
  have hentry : p.state.symbols.SlotsWithin (IsScalarPlace head.params body.decls) :=
    declareParams_slotsWithin (enterFunction_ok hp) (houtside.mono fun _ => False.elim)
      fun i hi offset hoffset => .inl ⟨i, hi, hoffset⟩
  refine (hrun.staysWithin hframe (by simp) hentry fun decl symbol offset hmem hslot => ?_).1
  obtain ⟨j, hj⟩ := List.mem_iff_getElem?.1 hmem
  obtain ⟨o, rfl, hoffset⟩ := hplaces j decl symbol hj
  simp only [Symbol.slot?, Option.ite_none_left_eq_some, Option.some.injEq] at hslot
  obtain ⟨harray, rfl⟩ := hslot
  refine .inr ⟨j, decl, ?_, by simpa using harray, hoffset⟩
  rw [← hdecls, List.getElem?_map, hj]
  rfl

end Lowering

/-! ### Functions -/

/-- How the lines of a function definition use its frame. The parameters are declared at `entry`,
from where the body gives the code and declares the locals. -/
structure FrameLayout (pos : Position) (head : Signature) (body : Stmt) (lines : List Line)
    (entry exit : Session) (locals : List (Variable × Symbol)) (room : List Instruction)
    (code : List Line) : Prop where
  enters : ∃ s, enterFunction pos head s = .ok ⟨(), [], entry⟩
  lowers : lowerItems body.items entry = .ok ⟨(), code, exit⟩
  /-- Room is made right behind the start of the function. -/
  lines_eq : lines = [.label head.name] ++ ((prologue ++ room).map .instruction ++
    (code ++ epilogue.map .instruction))
  /-- The name of a parameter stands for its place. -/
  params : ∀ i param, head.params[i]? = some param → ∃ offset : Int16,
    entry.symbols.lookup param.name = some (.stack offset param.ty false) ∧
      offset.toInt = paramPlace head.params.length i
  /-- The variables are declared in order, with these symbols. -/
  declares : Declares entry code locals exit
  decls : locals.map Prod.fst = body.decls
  /-- The symbol of a variable gives its place. -/
  places : ∀ j decl symbol, locals[j]? = some (decl, symbol) → ∃ offset : Int16,
    symbol = .stack offset decl.ty decl.constant ∧ offset.toInt = localPlace body.decls j
  /-- No byte belongs to two of the saved frame pointer with the return address, the parameters and
  the variables. -/
  disjoint : (bytesAt 0 2 :: (paramBytes head.params ++ localBytes body.decls)).Pairwise Disjoint
  /-- The room is that of the variables, and no other line makes room. -/
  isRoomFor : IsRoomFor (wordBytes * wordsOf body.decls) room
  reserves : ∀ line ∈ code, line.isReservation = false
  fits : wordBytes * wordsOf body.decls ≤ 32768
  /-- An operand in the frame is at the place of a parameter or of a scalar variable. -/
  operands : ∀ offset ∈ frameOffsetsOf lines, IsScalarPlace head.params body.decls offset
  range : ∀ offset ∈ frameOffsetsOf lines,
    -(wordBytes * wordsOf body.decls : Nat) ≤ offset.toInt ∧ offset.toInt ≤ -2 ∨
      4 ≤ offset.toInt ∧ offset.toInt ≤ 2 * head.params.length + 2

namespace Lowering

theorem lowerStmt_frameLayout {pos : Position} {head : Signature} {body : Stmt} {s : Session}
    {em : Emission Session Unit} (h : lowerStmt (.function pos head body) s = .ok em)
    (hs : s.Valid 0) :
    ∃ entry exit locals room code,
      FrameLayout pos head body em.lines entry exit locals room code := by
  rw [lowerStmt_function_apply] at h
  obtain ⟨-, table, p, b, r, ht, hp, hb, hr, rfl⟩ := lowerFunction_run h
  obtain ⟨hframe, hfits, locals, -, -, hrun, hdecls, hplaces⟩ := lowerItems_places hp hb
  obtain ⟨r', hr', hroom⟩ := leaveFunction_isRoomFor pos hframe hfits
  obtain rfl : r = r' := by
    rw [hr] at hr'
    exact Except.ok.inj hr'
  have hvalid : table.Valid 0 :=
    hs.symbols.declare (by simp [functionSymbol, Symbol.isGlobal]) ht
  have hcode := lowerItems_staysWithin hvalid hp hb
  have hoperands : ∀ offset ∈ frameOffsetsOf ([.label head.name] ++
      ((prologue ++ r.value).map .instruction ++ (b.lines ++ epilogue.map .instruction))),
      IsScalarPlace head.params body.decls offset := by
    have hlabel : frameOffsetsOf [.label head.name] = [] := rfl
    have hepilogue : frameOffsetsOf (epilogue.map .instruction) = [] := rfl
    rw [frameOffsetsOf_append, frameOffsetsOf_append, frameOffsetsOf_append, hlabel,
      frameOffsetsOf_room hroom, hepilogue, List.nil_append, List.nil_append, List.append_nil]
    exact hcode.offsets
  refine ⟨p.state, b.state, locals, r.value, b.lines, ?_⟩
  exact
    { enters := by
        obtain ⟨hlines, -, -⟩ := declareParams_ok (enterFunction_ok hp)
        exact ⟨{ s with symbols := table }, by rw [hp, ← hlines]⟩
      lowers := hb
      lines_eq := rfl
      params := declareParams_lookup (enterFunction_ok hp)
      declares := hrun
      decls := hdecls
      places := hplaces
      disjoint := pairwise_frameBytes head.params body.decls
      isRoomFor := hroom
      reserves := hcode.reserves
      fits := hfits
      operands := hoperands
      range := fun offset ho => (hoperands offset ho).range }

end Lowering

/-! ### Programs -/

/-- The lines of each function definition of a program have the layout of its frame. -/
theorem Listing.ofProgram_frameLayout {file : String} {program : Program} {listing : Listing}
    (h : Listing.ofProgram file program = .ok listing) {pos : Position} {head : Signature}
    {body : Stmt} (hf : .function pos head body ∈ Stmt.functionsOfAll program) :
    ∃ before lines after, listing.lines = before ++ (lines ++ after) ∧
      ∃ entry exit locals room code,
        FrameLayout pos head body lines entry exit locals room code := by
  obtain ⟨e, he, rfl⟩ := Listing.ofProgram_ok h
  obtain ⟨s, em, -, hs, hrun, before, after, hlines⟩ := visits_function he hf (dataLines e.state)
  exact ⟨before, em.lines, after, by rw [← hlines, List.append_assoc],
    lowerStmt_frameLayout hrun hs⟩

/-- Each function definition of a source that compiles has the layout of its frame. When the room
for the locals is made, it fits: what would not has been refused before, in any program. -/
theorem compile_frameLayout (file source : String) :
    (∀ listing, compile file source = .ok listing → ∃ tokens program,
      Token.ofSource file source = .ok tokens ∧ Program.ofTokens tokens = .ok program ∧
      ∀ pos head body, .function pos head body ∈ Stmt.functionsOfAll program →
        ∃ before lines after, listing.lines = before ++ (lines ++ after) ∧
          ∃ entry exit locals room code,
            FrameLayout pos head body lines entry exit locals room code) ∧
    ∀ pos head body s b, (do enterFunction pos head; lowerItems (Stmt.items body)) s = .ok b →
      ∃ r, leaveFunction pos b.state = .ok r := by
  constructor
  · intro listing h
    obtain ⟨tokens, program, htokens, hprogram, h⟩ := compile_eq_ok_iff.1 h
    exact ⟨tokens, program, htokens, hprogram, fun pos head body hf =>
      Listing.ofProgram_frameLayout h hf⟩
  · intro pos head body s b h
    obtain ⟨p, b, hp, hb, rfl⟩ := Emitter.bind_eq_ok_iff.1 h
    obtain ⟨hframe, hfits, -⟩ := lowerItems_places hp hb
    obtain ⟨r, hr, -⟩ := leaveFunction_isRoomFor pos hframe hfits
    exact ⟨r, hr⟩

/-- `int f(int a, char b) { char v[3]; { int x = b; } int y; return y + a; }` -/
def nestedLocals : String :=
  "int f(int a, char b) \x7b char v[3]; \x7b int x = b; \x7d int y; return y + a; \x7d"

/-- The lines of `nestedLocals`: the array takes the words at -4, so `x` is at -6 and `y` at -8, and
the parameters are at 6 and 4. -/
def nestedLocalsLines : List Line :=
  [.label "f",
   .instruction (.push .sf),
   .instruction (.mov Register.sf Register.sp),
   .instruction (.sub .sp (.immediate 8)),
   .instruction (.mov (Register.general 0) (Address.frame 4)),
   .instruction (.mov (Address.frame (-6)) (Register.general 0)),
   .instruction (.mov (Register.general 0) (Address.frame (-8))),
   .instruction (.mov (Register.general 1) (Address.frame 6)),
   .instruction (.add (.general 0) (Register.general 1)),
   .instruction (.mov Register.rv (Register.general 0)),
   .instruction (.mov Register.sp Register.sf),
   .instruction (.pop .sf),
   .instruction .ret,
   .instruction (.mov Register.sp Register.sf),
   .instruction (.pop .sf),
   .instruction .ret]

/-- Locals of a block and behind it, and a frame with one local that is left. -/
theorem compile_frameLayout_nestedLocals :
    compile "a.c" nestedLocals = .ok ⟨"a.c", nestedLocalsLines⟩ ∧
    (∃ tokens program pos body, Token.ofSource "a.c" nestedLocals = .ok tokens ∧
      Program.ofTokens tokens = .ok program ∧
      .function pos ⟨"f", .int, [⟨"a", .int⟩, ⟨"b", .char⟩]⟩ body ∈ Stmt.functionsOfAll program ∧
      ∃ before lines after, nestedLocalsLines = before ++ (lines ++ after) ∧
        ∃ entry exit locals room code,
          FrameLayout pos ⟨"f", .int, [⟨"a", .int⟩, ⟨"b", .char⟩]⟩ body lines entry exit locals room
            code) ∧
    ∃ r, leaveFunction default
      ⟨.empty, ⟨[], [[("x", .stack (-2) .int false)]]⟩, some ⟨"f", 1⟩⟩ = .ok r := by
  let head : Signature := ⟨"f", .int, [⟨"a", .int⟩, ⟨"b", .char⟩]⟩
  have hcompile : compile "a.c" nestedLocals = .ok ⟨"a.c", nestedLocalsLines⟩ := by decide +kernel
  obtain ⟨hsource, hleave⟩ := compile_frameLayout "a.c" nestedLocals
  obtain ⟨tokens, program, htokens, hprogram, hframes⟩ := hsource _ hcompile
  have hheads : ((Token.ofSource "a.c" nestedLocals).bind Program.ofTokens).map
      (fun program => (Stmt.functionsOfAll program).any fun
        | .function _ head' _ => head' = head
        | _ => false) = .ok true := by
    decide +kernel
  rw [htokens] at hheads
  simp only [Except.bind, hprogram, Except.map, Except.ok.injEq] at hheads
  obtain ⟨f, hf, hhead⟩ := List.any_eq_true.1 hheads
  refine ⟨hcompile, ?_, ?_⟩
  · cases f with
    | function pos head' body =>
      obtain rfl : head' = head := of_decide_eq_true hhead
      exact ⟨tokens, program, pos, body, htokens, hprogram, hf, hframes pos head body hf⟩
    | _ => cases hhead
  · let body : Stmt := .block default [.var default ⟨"x", .int, false, none⟩]
    have hbody : (do enterFunction default ⟨"f", .int, []⟩; lowerItems body.items) .empty =
        .ok ⟨(), [], ⟨.empty, ⟨[], [[("x", .stack (-2) .int false)]]⟩, some ⟨"f", 1⟩⟩⟩ := by
      decide +kernel
    exact hleave default _ body _ _ hbody

end WordC
