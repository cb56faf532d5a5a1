import WordC.Proofs.Simulation.Arguments

/-!
# Taking the arguments of a call off the stack

Behind the `call` instruction of a call with arguments stands one that adds to `sp`. An instruction
holds one word, and the number of arguments is not bounded, so what is added is the number of bytes
pushed modulo the size of a word. It is the number itself for fewer than 32768 arguments
(`Listing.ofProgram_cleanup`), and with so many nothing is added at all
(`Listing.ofProgram_manyArguments`).
-/

namespace WordC

/-- What a line adds to `sp`, if it is such a line. -/
def Line.dropped? : Line → Option Word
  | .instruction (.add .sp (.immediate bytes)) => some bytes
  | _ => none

namespace Lowering

theorem toNat_argumentBytes (count : Nat) :
    (argumentBytes count).toNat = wordBytes * count % 2 ^ 16 := by
  rw [argumentBytes]
  exact UInt16.toNat_ofNat'

/-- The first line behind a `call` instruction drops the arguments, if there are any. -/
theorem dropped?_callEnd (saved : List Register) (count : Nat) (result : Register) :
    (callEnd saved count result).head?.bind Line.dropped? =
      if count = 0 then none else some (argumentBytes count) := by
  unfold callEnd dropArguments
  split
  · cases saved.reverse with
    | nil => rfl
    | cons r rs => rfl
  · rfl

/-- The bytes of the arguments fit into a word exactly if there are fewer than 32768. -/
theorem toNat_argumentBytes_eq_iff {count : Nat} :
    (argumentBytes count).toNat = wordBytes * count ↔ count < 32768 := by
  rw [toNat_argumentBytes, wordBytes]
  omega

end Lowering

open Lowering Emitter

/-- What is taken off the stack behind a call. The lines of each call of the program stand in
the listing. Wherever the lines of a call stand, each argument is pushed on a line of its own; the
line behind the `call` instruction adds the bytes of these pushes to `sp`, modulo the size of a
word, and there is no such line if there are no arguments. So exactly the calls with fewer than
32768 arguments have the number of bytes itself there. -/
theorem Listing.ofProgram_cleanup (file : String) (program : Program) (listing : Listing)
    (h : Listing.ofProgram file program = .ok listing) :
    (∀ call ∈ Stmt.callsOfAll program, LoweredIn listing.lines call) ∧
    ∀ table at_ callee args s em base,
      lowerExpr table (.call at_ callee args) s = .ok em → CodeAt listing.lines base em.lines →
      ∃ front target back, em.lines = front ++ .instruction (.call target) :: back ∧
        (∀ r, .instruction (.call r) ∉ back) ∧
        let pushes := argumentLines table callee args s base
        let dropped := (back.head?.bind Line.dropped?).map UInt16.toNat
        pushes.length = args.length ∧
        (∀ l ∈ pushes, ∃ i, listing.lines[l]? = some (.instruction (.push (.general i)))) ∧
        dropped = (if args.length = 0 then none else some (wordBytes * pushes.length % 2 ^ 16)) ∧
        (dropped = (if args.length = 0 then none else some (wordBytes * pushes.length)) ↔
          args.length < 32768) := by
  refine ⟨Listing.ofProgram_calls h, fun table at_ callee args s em base hcall hcode => ?_⟩
  obtain ⟨a, c, i, ha, hc, -, -, hlines⟩ := lowerExpr_call_lines hcall
  rw [hlines] at hcode
  have hargs := hcode.left.right.right
  simp only [List.length_map] at hargs
  have hlength : (argumentLines table callee args s base).length = args.length := by
    rw [argumentLines, ha]
    exact length_pushLines hc
  refine ⟨_, a.value, _, hlines, call_notMem_callEnd _ _ _, hlength, ?_, ?_, ?_⟩
  · rw [argumentLines, ha]
    exact isPush_of_mem_pushLines hc hargs
  · rw [dropped?_callEnd, hlength]
    split
    · rfl
    · rw [Option.map_some, toNat_argumentBytes]
  · rw [dropped?_callEnd, hlength]
    split
    · rename_i hnone
      simp [hnone]
    · rw [Option.map_some, Option.some_inj, toNat_argumentBytes_eq_iff]

/-- Behind the outer call of `f(f(1, 2), 3)` its two arguments are dropped. -/
theorem Listing.ofProgram_cleanup_nested :
    Listing.ofProgram "a.c" nestedArguments = .ok ⟨"a.c", nestedArgumentsLines⟩ ∧
      LoweredIn nestedArgumentsLines nestedCall ∧ CodeAt nestedArgumentsLines 9 nestedCallLines ∧
      ∃ front target back, nestedCallLines = front ++ .instruction (.call target) :: back ∧
        (∀ r, .instruction (.call r) ∉ back) ∧
        (back.head?.bind Line.dropped?).map UInt16.toNat = some 4 := by
  have hprogram : Listing.ofProgram "a.c" nestedArguments = .ok ⟨"a.c", nestedArgumentsLines⟩ := by
    decide +kernel
  have hcode : CodeAt nestedArgumentsLines 9 nestedCallLines :=
    ⟨nestedArgumentsLines.take 9, nestedArgumentsLines.drop 26, rfl, rfl⟩
  obtain ⟨hcalls, hcleanup⟩ := Listing.ofProgram_cleanup "a.c" nestedArguments _ hprogram
  obtain ⟨front, target, back, hlines, hback, hlength, -, hdropped, -⟩ :=
    hcleanup ⟨[("f", .function 2 true), ("main", .function 0 true)], [[]]⟩ default
      (.name default "f")
      [.call default (.name default "f") [.number default 1, .number default 2], .number default 3]
      .empty ⟨.general 0, nestedCallLines, ⟨RegisterPool.empty.set 0 true, 0, []⟩⟩ 9
      (by decide +kernel) hcode
  refine ⟨hprogram, hcalls _ ?_, hcode, front, target, back, hlines, hback, ?_⟩
  · simp [nestedArguments, nestedCall, Stmt.callsOfAll, Stmt.calls, Expr.calls]
  · rw [hdropped, hlength]
    rfl

/-! ### Too many arguments -/

/-- `f(1, …, 1)` with so many arguments. -/
def manyCall (count : Nat) : Expr :=
  .call default (.name default "f") (List.replicate count (.number default 1))

/-- `int f(); f(1, …, 1);` with so many arguments. -/
def manyArguments (count : Nat) : Program :=
  [.prototype default ⟨"f", .int, []⟩, .expr default (manyCall count)]

/-- The lines of one of the arguments. -/
def oneArgument : List Line :=
  [.instruction (.mov (Register.general 1) (.immediate 1)), .instruction (.push (.general 1))]

/-- The lines of `manyCall` in front of its `call` instruction. -/
def manyPushes (count : Nat) : List Line :=
  .instruction (.mov (Register.general 0) (.label "f")) ::
    (List.replicate count oneArgument).flatten

/-- The lines of `manyCall`. -/
def manyCallLines (count : Nat) : List Line :=
  manyPushes count ++ .instruction (.call (.general 0)) :: callEnd [] count (.general 0)

theorem count_manyPushes (count : Nat) :
    (manyPushes count).count (.instruction (.push (.general 1))) = count := by
  rw [manyPushes, List.count_cons_of_ne (by simp)]
  induction count with
  | zero => rfl
  | succ count ih =>
    rw [List.replicate_succ, List.flatten_cons, List.count_append, ih, Nat.add_comm]
    rfl

/-- Equal arguments have equal lines. -/
theorem lowerArguments_replicate (table : SymbolTable) {s : Scratch}
    (hfree : s.pool.free? = some 1) (count : Nat) :
    lowerArguments table (List.replicate count (.number default 1)) s =
      .ok ⟨(), (List.replicate count oneArgument).flatten, s⟩ := by
  induction count with
  | zero =>
    rw [List.replicate_zero, lowerArguments]
    rfl
  | succ count ih =>
    have hfirst : lowerExpr table (.number default 1) s = .ok ⟨.general 1,
        [.instruction (.mov (Register.general 1) (.immediate 1))],
        { s with pool := s.pool.set 1 true }⟩ := by
      rw [lowerExpr]
      exact bind_eq_ok_iff.2 ⟨_, _, alloc_eq_ok_iff.2 ⟨1, hfree, rfl⟩, rfl, rfl⟩
    have hpool : (s.pool.set 1 true).free (.general 1) = s.pool :=
      (RegisterPool.takes_of_free? hfree).free_eq
    rw [List.replicate_succ, lowerArguments]
    have hrelease : release (.general 1) { s with pool := s.pool.set 1 true } = .ok ⟨(), [], s⟩ :=
      release_eq_ok_iff.2 (by rw [hpool])
    simp [bind_apply, emitLines_apply, emit, hfirst, hrelease, ih, oneArgument,
      List.replicate_succ]

/-- The symbols behind the prototype of `f`. -/
def prototypeOnly : SymbolTable := ⟨[("f", .function 0 false)], []⟩

theorem lowerExpr_manyCall (count : Nat) :
    lowerExpr prototypeOnly (manyCall count) .empty =
      .ok ⟨.general 0, manyCallLines count, ⟨RegisterPool.empty.set 0 true, 0, []⟩⟩ := by
  have hcallee : lowerExpr prototypeOnly (.name default "f") .empty =
      .ok ⟨.general 0, [.instruction (.mov (Register.general 0) (.label "f"))],
        ⟨RegisterPool.empty.set 0 true, 0, []⟩⟩ := by decide +kernel
  have hargs := lowerArguments_replicate prototypeOnly
    (s := ⟨RegisterPool.empty.set 0 true, 0, []⟩) (by decide +kernel) count
  have hresult : load default Register.rv
      ⟨(RegisterPool.empty.set 0 true).free (.general 0), 0, []⟩ =
        .ok ⟨.general 0, [.instruction (.mov (Register.general 0) Register.rv)],
          ⟨RegisterPool.empty.set 0 true, 0, []⟩⟩ := by decide +kernel
  rw [manyCall, lowerExpr]
  have hsaved : liveRegisters .empty = .ok ⟨[], [], .empty⟩ := by decide +kernel
  have hrelease : release (.general 0) ⟨RegisterPool.empty.set 0 true, 0, []⟩ =
      .ok ⟨(), [], ⟨(RegisterPool.empty.set 0 true).free (.general 0), 0, []⟩⟩ := rfl
  simp [bind_apply, emitLines_apply, emit, emitCode, hsaved, hcallee, hargs, hrelease, hresult,
    manyCallLines, manyPushes, callEnd]

theorem ofProgram_manyArguments_eq (file : String) (count : Nat) :
    Listing.ofProgram file (manyArguments count) = .ok ⟨file, manyCallLines count⟩ := by
  have hhead : lowerStmt (.prototype default ⟨"f", .int, []⟩) .empty =
      .ok ⟨(), [], ⟨.empty, prototypeOnly, none⟩⟩ := by decide +kernel
  have hcall : lowerStmt (.expr default (manyCall count)) ⟨.empty, prototypeOnly, none⟩ =
      .ok ⟨(), manyCallLines count, ⟨.empty, prototypeOnly, none⟩⟩ := by
    rw [lowerStmt, visit_apply]
    have hvalue : evaluate (manyCall count) ⟨.empty, prototypeOnly, none⟩ = _ :=
      evaluate_eq_ok_iff.2 ⟨_, lowerExpr_manyCall count, rfl⟩
    have hrelease : onScratch (release (.general 0))
        ⟨⟨RegisterPool.empty.set 0 true, 0, []⟩, prototypeOnly, none⟩ =
          .ok ⟨(), [], ⟨.empty, prototypeOnly, none⟩⟩ := by decide +kernel
    simp [evaluateOnly, bind_apply, hvalue, hrelease]
  have hdata : dataLines ⟨.empty, prototypeOnly, none⟩ = [] := by decide
  have hitems : lowerItems (manyArguments count) .empty =
      .ok ⟨(), manyCallLines count, ⟨.empty, prototypeOnly, none⟩⟩ := by
    simp [manyArguments, lowerItems, bind_apply, pure_apply, hhead, hcall]
  rw [Listing.ofProgram, hitems]
  simp [hdata]

/-- For 32768 arguments, which are 65536 bytes, nothing is added to `sp`. -/
theorem Listing.ofProgram_manyArguments : ∃ front,
    Listing.ofProgram "main.c" (manyArguments 32768) = .ok ⟨"main.c", front ++
      [.instruction (.call (.general 0)), .instruction (.add .sp (.immediate 0)),
       .instruction (.mov (Register.general 0) Register.rv)]⟩ ∧
    front.count (.instruction (.push (.general 1))) = 32768 := by
  have hend : callEnd [] 32768 (.general 0) = [.instruction (.add .sp (.immediate 0)),
      .instruction (.mov (Register.general 0) Register.rv)] := by decide +kernel
  refine ⟨manyPushes 32768, ?_, count_manyPushes 32768⟩
  rw [ofProgram_manyArguments_eq, manyCallLines, hend]

end WordC
