import WordC.Lowering.Stmt
import WordC.Parser.Stmt
import WordC.Token.Scan

/-!
# Compiling a source file

From source text to listing: tokens, program, lines. The first fault ends it.
-/

namespace WordC

/-- The listing of a source file. -/
def compile (file source : String) : Except Diagnostic Listing :=
  match Token.ofSource file source with
  | .error d => .error d
  | .ok tokens =>
    match Program.ofTokens tokens with
    | .error d => .error d
    | .ok program => Listing.ofProgram file program

/-- A source compiles exactly when it has tokens, they are a program, and the program is lowered. -/
theorem compile_eq_ok_iff {file source : String} {listing : Listing} :
    compile file source = .ok listing ↔ ∃ tokens program, Token.ofSource file source = .ok tokens ∧
      Program.ofTokens tokens = .ok program ∧ Listing.ofProgram file program = .ok listing := by
  unfold compile
  cases Token.ofSource file source with
  | error d => simp
  | ok tokens => cases hp : Program.ofTokens tokens <;> simp [hp]

end WordC
