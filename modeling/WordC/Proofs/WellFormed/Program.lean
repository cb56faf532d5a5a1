import WordC.Compile
import WordC.Proofs.Grammar.Stmt
import WordC.Proofs.WellFormed.Order
import WordC.Proofs.WellFormed.Stmt

/-!
# Well-formed programs are accepted

Unless registers run out, a program that was read from tokens is lowered exactly if it is well
formed, with the step of a loop read behind the body (`Listing.ofProgram_isOk_iff_isWellFormed`).
-/

namespace WordC
open Lowering

/-! ### Initial values -/

namespace Grammar

theorem IsType.isArray {ts : List Token} {ty : Ty} (h : IsType ts ty) : ty.isArray = false := by
  cases h with
  | base ht => cases ‹Base› <;> rfl
  | pointer => rfl

theorem IsHead.isArray {ts : List Token} {constant : Bool} {ty : Ty} {name : String}
    (h : IsHead ts constant ty name) : ty.isArray = false := by
  cases h with
  | plain hty | const _ hty => exact hty.isArray

theorem IsVariable.initsScalar {ts : List Token} {decl : Variable} (h : IsVariable ts decl) :
    decl.InitsScalar := by
  cases h with
  | array | bare => exact fun hinit => absurd rfl hinit
  | initialized hhead => exact fun _ => hhead.isArray

mutual

theorem IsStmt.initsScalar : ∀ {ts : List Token} {stmt : Stmt}, IsStmt ts stmt →
    ∀ decl ∈ stmt.decls, decl.InitsScalar
  | _, _, .block _ h _ => by
    rw [Stmt.decls]
    exact h.initsScalar
  | _, _, .ifThen _ _ hyes => by
    rw [Stmt.decls]
    exact hyes.initsScalar
  | _, _, .ifElse _ _ hyes _ _ hno => by
    rw [Stmt.decls, List.forall_mem_append]
    exact ⟨hyes.initsScalar, hno.initsScalar⟩
  | _, _, .whileLoop _ _ hbody => by
    rw [Stmt.decls]
    exact hbody.initsScalar
  | _, _, .forLoop _ _ _ _ _ _ _ _ hbody => by
    rw [Stmt.decls]
    exact hbody.initsScalar
  | _, _, .ret .. | _, _, .expr .. => by simp [Stmt.decls]

theorem IsItem.initsScalar : ∀ {ts : List Token} {item : Stmt}, IsItem ts item →
    ∀ decl ∈ item.decls, decl.InitsScalar
  | _, _, .stmt h => h.initsScalar
  | _, _, .var h => by simpa [Stmt.decls] using h.initsScalar
  | _, _, .prototype .. => by simp [Stmt.decls]
  | _, _, .function _ _ hbody => by
    rw [Stmt.decls]
    exact hbody.initsScalar

theorem IsItems.initsScalar : ∀ {ts : List Token} {items : List Stmt}, IsItems ts items →
    ∀ decl ∈ Stmt.declsOfAll items, decl.InitsScalar
  | _, _, .nil => by simp [Stmt.declsOfAll]
  | _, _, .cons h hs => by
    rw [Stmt.declsOfAll, List.forall_mem_append]
    exact ⟨h.initsScalar, hs.initsScalar⟩

end

end Grammar

/-! ### Programs -/

theorem SymbolTable.env_empty : SymbolTable.empty.env = Env.empty := rfl

theorem Session.Ready.empty (n : Nat) : Session.empty.Ready .empty n :=
  ⟨SymbolTable.env_empty, by simp [Session.empty, Env.empty], by simp [Session.empty]⟩

namespace Listing

variable {file : String} {program : Program} {listing : Listing}

theorem isWellFormed_of_ofProgram (h : ofProgram file program = .ok listing) :
    program.IsWellFormed .asRun := by
  unfold ofProgram at h
  split at h
  · cases h
  · rename_i em hem
    exact ⟨_, lowerItems_areWellFormed_of (fun item _ => lowerStmt_isWellFormed item) hem .empty⟩

theorem exists_of_completes (h : (lowerItems program).Completes .empty)
    (hr : ∀ pos, ofProgram file program ≠ .error ⟨pos, .outOfRegisters⟩) :
    ∃ listing, ofProgram file program = .ok listing := by
  unfold Emitter.Completes Emitter.Meets at h
  unfold ofProgram at *
  cases hem : lowerItems program .empty with
  | error d =>
    rw [hem] at h hr
    obtain ⟨pos, cause⟩ := d
    subst h
    exact absurd rfl (hr pos)
  | ok em => exact ⟨_, rfl⟩

/-- What is computed from the program of a source. -/
theorem exists_program {α : Type} {source : String} {f : Program → α} {a : α}
    (h : ((Token.ofSource file source).bind Program.ofTokens).map f = .ok a) :
    ∃ tokens program, Token.ofSource file source = .ok tokens ∧
      Program.ofTokens tokens = .ok program ∧ f program = a := by
  cases ht : Token.ofSource file source with
  | error d => simp [ht, Except.bind, Except.map] at h
  | ok tokens =>
    cases hp : Program.ofTokens tokens with
    | error d => simp [ht, hp, Except.bind, Except.map] at h
    | ok program =>
      simp only [ht, hp, Except.bind, Except.map, Except.ok.injEq] at h
      exact ⟨tokens, program, rfl, hp, h⟩

/-- Unless registers run out, a program that was read is lowered exactly if it is well formed with
the steps of loops read where they run. That holds of what is well formed as written. -/
theorem ofProgram_isOk_iff_isWellFormed {tokens : List Token}
    (hp : Program.ofTokens tokens = .ok program) (file : String)
    (hr : ∀ pos, ofProgram file program ≠ .error ⟨pos, .outOfRegisters⟩) :
    ((∃ listing, ofProgram file program = .ok listing) ↔ program.IsWellFormed .asRun) ∧
      (program.IsWellFormed .asWritten → program.IsWellFormed .asRun) := by
  have hitems := Program.isItems_of_ofTokens hp
  refine ⟨⟨?_, ?_⟩, ?_⟩
  · rintro ⟨listing, h⟩
    exact isWellFormed_of_ofProgram h
  · rintro ⟨env, h⟩
    have hmeets : (lowerItems program).Meets .empty fun _ t => t.Ready env 0 :=
      h.meets hitems.initsScalar (Session.Ready.empty _)
    exact exists_of_completes hmeets.completes hr
  · rintro ⟨env, h⟩
    exact ⟨env, h.asRun hitems.exists_isItem⟩

/-- `int g(int n); int f(int n) { for (; n; n = n - 1) { int n = 2; g(n); } f(n); }` -/
def shadowing : String :=
  "int g(int n); int f(int n) \x7b for (; n; n = n - 1) \x7b int n = 2; g(n); \x7d f(n); \x7d"

/-- `int f(int n) { int n; return n; }` -/
def redeclaring : String := "int f(int n) \x7b int n; return n; \x7d"

/-- The local of an inner block may be named like a parameter, and that of the outermost block may
not. -/
theorem ofProgram_isOk_iff_isWellFormed_shadowing :
    (∃ tokens program listing, Token.ofSource "a.c" shadowing = .ok tokens ∧
      Program.ofTokens tokens = .ok program ∧ ofProgram "a.c" program = .ok listing ∧
      program.IsWellFormed .asRun) ∧
    ∃ tokens program, Token.ofSource "a.c" redeclaring = .ok tokens ∧
      Program.ofTokens tokens = .ok program ∧
      ofProgram "a.c" program = .error ⟨⟨"a.c", 1, 16⟩, .redeclared "n"⟩ ∧
      ¬ program.IsWellFormed .asRun := by
  constructor
  · have haccepted : ((Token.ofSource "a.c" shadowing).bind Program.ofTokens).map
        (fun program => (ofProgram "a.c" program).toOption.isSome) = .ok true := by decide +kernel
    obtain ⟨tokens, program, ht, hp, hsome⟩ := exists_program haccepted
    cases hlisting : ofProgram "a.c" program with
    | error d => simp [hlisting, Except.toOption] at hsome
    | ok listing =>
      obtain ⟨hiff, -⟩ := ofProgram_isOk_iff_isWellFormed hp "a.c" (by simp [hlisting])
      exact ⟨tokens, program, listing, ht, hp, hlisting, hiff.1 ⟨listing, hlisting⟩⟩
  · have hrejected : ((Token.ofSource "a.c" redeclaring).bind Program.ofTokens).map
        (ofProgram "a.c") = .ok (.error ⟨⟨"a.c", 1, 16⟩, .redeclared "n"⟩) := by decide +kernel
    obtain ⟨tokens, program, ht, hp, herror⟩ := exists_program hrejected
    obtain ⟨hiff, -⟩ := ofProgram_isOk_iff_isWellFormed hp "a.c" (by simp [herror])
    exact ⟨tokens, program, ht, hp, herror, fun h => by simpa [herror] using hiff.2 h⟩

/-- `for (;;x) { int x; }` -/
def lateStep : String := "for (;;x) \x7b int x; \x7d"

/-- The tokens of `lateStep`. -/
def lateStepTokens : List Token :=
  [⟨.keyword .forWord, "for", "main.c", 1, 1⟩, ⟨.mark .openParen, "(", "main.c", 1, 5⟩,
   ⟨.mark .semicolon, ";", "main.c", 1, 6⟩, ⟨.mark .semicolon, ";", "main.c", 1, 7⟩,
   ⟨.identifier, "x", "main.c", 1, 8⟩, ⟨.mark .closeParen, ")", "main.c", 1, 9⟩,
   ⟨.mark .openBrace, "\x7b", "main.c", 1, 11⟩, ⟨.keyword .intWord, "int", "main.c", 1, 13⟩,
   ⟨.identifier, "x", "main.c", 1, 17⟩, ⟨.mark .semicolon, ";", "main.c", 1, 18⟩,
   ⟨.mark .closeBrace, "\x7d", "main.c", 1, 20⟩]

/-- The program of `lateStep`. -/
def lateStepProgram : Program :=
  [.forLoop ⟨"main.c", 1, 1⟩ none none (some (.name ⟨"main.c", 1, 8⟩ "x"))
    (.block ⟨"main.c", 1, 11⟩ [.var ⟨"main.c", 1, 13⟩ ⟨"x", .int, false, none⟩])]

/-- The lines of `lateStep`. -/
def lateStepLines : List Line :=
  [.label "L0",
   .instruction (.mov (Register.general 0) (Address.label "x")),
   .instruction (.jmp "L0"),
   .label "L1",
   .label "x",
   .reserve 2]

open Grammar in
theorem isItems_lateStep : IsItems lateStepTokens lateStepProgram := by
  have hx : IsExpr .assign [⟨.identifier, "x", "main.c", 1, 8⟩] (.name ⟨"main.c", 1, 8⟩ "x") :=
    .tighter rfl (.tighter rfl (.tighter rfl (.tighter rfl (.tighter rfl (.tighter rfl
      (.tighter rfl (.tighter rfl (.tighter rfl (.atom (.name rfl))))))))))
  have hhead : IsHead ([⟨.keyword .intWord, "int", "main.c", 1, 13⟩] ++
      [⟨.identifier, "x", "main.c", 1, 17⟩]) false Base.int.ty "x" := .plain (.base rfl) rfl
  have hvar : IsVariable ([⟨.keyword .intWord, "int", "main.c", 1, 13⟩,
      ⟨.identifier, "x", "main.c", 1, 17⟩] ++ [⟨.mark .semicolon, ";", "main.c", 1, 18⟩])
      ⟨"x", .int, false, none⟩ := .bare hhead nofun rfl
  have hbody := IsStmt.block (t := ⟨.mark .openBrace, "\x7b", "main.c", 1, 11⟩) rfl
    (.cons (.var hvar) .nil) (rfl : (⟨.mark .closeBrace, "\x7d", "main.c", 1, 20⟩ : Token).kind = _)
  have hfor := IsStmt.forLoop (t := ⟨.keyword .forWord, "for", "main.c", 1, 1⟩) rfl
    (rfl : (⟨.mark .openParen, "(", "main.c", 1, 5⟩ : Token).kind = _) .none
    (rfl : (⟨.mark .semicolon, ";", "main.c", 1, 6⟩ : Token).kind = _) .none
    (rfl : (⟨.mark .semicolon, ";", "main.c", 1, 7⟩ : Token).kind = _) (.some hx)
    (rfl : (⟨.mark .closeParen, ")", "main.c", 1, 9⟩ : Token).kind = _) hbody
  exact .cons (.stmt hfor) .nil

/-- The step of a loop outside of functions may use a name that its body declares. -/
theorem ofProgram_lateStep :
    Token.ofSource "main.c" lateStep = .ok lateStepTokens ∧
      Program.ofTokens lateStepTokens = .ok lateStepProgram ∧
      ofProgram "main.c" lateStepProgram = .ok ⟨"main.c", lateStepLines⟩ ∧
      ¬ lateStepProgram.IsWellFormed .asWritten := by
  refine ⟨by decide +kernel, Program.ofTokens_of_isItems isItems_lateStep, by decide +kernel, ?_⟩
  rintro ⟨env, _ | ⟨h, -⟩⟩
  cases h with
  | forLoop hinit hcond hbody hstep =>
    have hname := hstep _ rfl
    simp [Expr.IsWellFormed, Order.step, Env.Knows, Env.lookup, Env.empty] at hname

end Listing

end WordC
