import WordC.Proofs.Command.Output

/-!
# What progress and dumps change

Telling about progress and dumping a stage go to the standard output. They change nothing else,
with one exception: a listing with an instruction cannot be dumped, and then nothing is written
(`Command.runIn_quiet_iff`).
-/

namespace WordC

/-- The first line of a report tells the message. -/
theorem Diagnostic.headline_injective {m m' : String}
    (h : headline m = headline m') : m = m' := by
  have hlist := congrArg String.toList h
  simp only [headline, Text.render, Text.renderFrom, String.toList_append, List.append_assoc,
    List.append_cancel_left_eq, Text.Style.shift_self, String.toList_empty,
    List.nil_append] at hlist
  exact String.toList_inj.1 (List.append_cancel_right hlist)

namespace Command

/-- The same options without progress and dumps. -/
def Options.quiet (options : Options) : Options := { options with verbose := false, dump := none }

/-- The runs end with the same code, the same report of a fault and the same tree. -/
def EndAlike (options options' : Options) (dir : Directory) : Prop :=
  (runIn options dir).1.exitCode = (runIn options' dir).1.exitCode ∧
    (runIn options dir).1.stderr = (runIn options' dir).1.stderr ∧
    (runIn options dir).2 = (runIn options' dir).2

/-- A listing with an instruction is to be dumped. -/
def DumpsInstructions (options : Options) (dir : Directory) : Prop :=
  options.dump = some .code ∧ ∃ source listing, dir.text options.input = .ok source ∧
    compile options.input source = .ok listing ∧ listing.hasInstruction = true

variable {options options' : Options} {dir : Directory}

/-- How a run ends depends on the paths and on what comes out of the source. -/
theorem endAlike_of_result (hinput : options.input = options'.input)
    (htarget : options.target = options'.target)
    (hresult : ∀ source, dir.text options.input = .ok source →
      (produce options source).result = (produce options' source).result) :
    EndAlike options options' dir := by
  unfold EndAlike
  rw [runIn_eq, runIn_eq, ← hinput, ← htarget]
  cases hsource : dir.text options.input with
  | error fault => exact ⟨rfl, rfl, rfl⟩
  | ok source =>
    simp only [← hresult source hsource]
    cases (produce options source).result with
    | error fault => exact ⟨rfl, rfl, rfl⟩
    | ok text =>
      simp only
      cases writeOutput Directory.fileSystem options.target text dir with
      | mk written after => cases written <;> exact ⟨rfl, rfl, rfl⟩

theorem result_produce_quiet (options : Options) (source : String) :
    (produce options.quiet source).result =
      match compile options.input source with
      | .error d => .error (.source d)
      | .ok listing => .ok listing.text := by
  rw [result_produce]
  rfl

/-- Apart from a listing with an instruction, a dump does not change what comes out. -/
theorem endAlike_quiet (h : ¬ DumpsInstructions options dir) :
    EndAlike options options.quiet dir := by
  refine endAlike_of_result rfl rfl fun source hsource => ?_
  rw [result_produce, result_produce_quiet]
  cases hcompile : compile options.input source with
  | error d => rfl
  | ok listing =>
    have hdump : (options.dumps .code && listing.hasInstruction) = false := by
      by_contra hdump
      rw [Bool.not_eq_false, Bool.and_eq_true] at hdump
      exact h ⟨of_decide_eq_true hdump.1, source, listing, hsource, hcompile, hdump.2⟩
    simp only [hdump, Bool.false_eq_true, if_false]

/-- A run that cannot write its dump fails and leaves the tree as it is. -/
theorem DumpsInstructions.runIn_eq (h : DumpsInstructions options dir) :
    (runIn options dir).1.exitCode = 1 ∧
      (runIn options dir).1.stderr = Diagnostic.headline Fault.nestedVariants.message ∧
      (runIn options dir).2 = dir := by
  obtain ⟨hdump, source, listing, hsource, hcompile, hinstruction⟩ := h
  have hresult : (produce options source).result = .error .nestedVariants := by
    simp [result_produce, hcompile, hinstruction, Options.dumps, hdump]
  simp only [Command.runIn_eq, hsource, hresult]
  exact ⟨rfl, rfl, trivial⟩

/-- Without the dump the same run gets as far as writing, so it succeeds or reports a file. -/
theorem DumpsInstructions.runIn_quiet (h : DumpsInstructions options dir) :
    (runIn options.quiet dir).1.exitCode = 0 ∨
      ∃ fault : FileFault,
        (runIn options.quiet dir).1.stderr = Diagnostic.headline (Fault.file fault).message := by
  obtain ⟨-, source, listing, hsource, hcompile, -⟩ := h
  have hwrites : Writes options.quiet dir listing.text :=
    ⟨source, hsource, by rw [result_produce_quiet, hcompile]⟩
  obtain ⟨source, hrun⟩ := hwrites.runIn_eq
  rw [hrun]
  cases writeOutput Directory.fileSystem options.quiet.target listing.text dir with
  | mk written after =>
    cases written with
    | error fault => exact .inr ⟨fault, rfl⟩
    | ok _ => exact .inl rfl

theorem DumpsInstructions.not_endAlike (h : DumpsInstructions options dir) :
    ¬ EndAlike options options.quiet dir := by
  rintro ⟨hexit, hstderr, -⟩
  obtain ⟨hfail, hreport, -⟩ := h.runIn_eq
  rcases h.runIn_quiet with hzero | ⟨fault, hfault⟩
  · rw [hfail, hzero] at hexit
    cases hexit
  · rw [hreport, hfault] at hstderr
    -- the two reports begin with different letters
    have hmessage := congrArg (·.toList.head?) (Diagnostic.headline_injective hstderr)
    simp [Fault.message, Fault.nestedVariants] at hmessage

/-- Progress and dumps change neither the exit code nor the report of a fault nor the tree, exactly
unless a listing with an instruction is to be dumped. Then the command fails without writing. -/
theorem runIn_quiet_iff (options : Options) (dir : Directory) :
    (EndAlike options options.quiet dir ↔ ¬ DumpsInstructions options dir) ∧
      (DumpsInstructions options dir → (runIn options dir).1.exitCode = 1 ∧
        (runIn options dir).1.stderr = Diagnostic.headline Fault.nestedVariants.message ∧
        (runIn options dir).2 = dir) :=
  ⟨⟨fun h hdump => hdump.not_endAlike h, endAlike_quiet⟩, DumpsInstructions.runIn_eq⟩

/-- The source of one statement, to be compiled with and without a dump of its listing. -/
def oneStatement : Directory := ⟨[(["main.c"], .file "1;".toUTF8)]⟩

/-- A dump of the listing of one statement keeps the listing from being written. -/
theorem runIn_quiet_dump_code :
    runIn { input := "main.c" } oneStatement = (⟨0, "", ""⟩,
        ⟨[(["main.c"], .file "1;".toUTF8), (["main.s"], .file "# main.c\n\tmov r0, 1\n".toUTF8)]⟩) ∧
      runIn { input := "main.c", dump := some .code } oneStatement =
        (⟨1, "", Diagnostic.headline
          "YAML error: serializing nested enums in YAML is not supported yet"⟩, oneStatement) ∧
      ¬ EndAlike { input := "main.c", dump := some .code } { input := "main.c" } oneStatement := by
  have hquiet : runIn { input := "main.c" } oneStatement = (⟨0, "", ""⟩,
      ⟨[(["main.c"], .file "1;".toUTF8),
        (["main.s"], .file "# main.c\n\tmov r0, 1\n".toUTF8)]⟩) := by
    decide +kernel
  have hdump : runIn { input := "main.c", dump := some .code } oneStatement =
      (⟨1, "", Diagnostic.headline
        "YAML error: serializing nested enums in YAML is not supported yet"⟩, oneStatement) := by
    decide +kernel
  refine ⟨hquiet, hdump, fun h => ?_⟩
  have hexit := h.1
  rw [hquiet, hdump] at hexit
  cases hexit

/-- A dump of the tree and progress together change only the standard output. -/
theorem runIn_quiet_iff_tree :
    EndAlike { input := "main.c", verbose := true, dump := some .tree } { input := "main.c" }
        oneStatement ∧
      (runIn { input := "main.c", dump := some .code } oneStatement).2 = oneStatement := by
  constructor
  · refine (runIn_quiet_iff { input := "main.c", verbose := true, dump := some .tree } _).1.2 ?_
    rintro ⟨hdump, -⟩
    cases hdump
  · refine ((runIn_quiet_iff { input := "main.c", dump := some .code } oneStatement).2
      ⟨rfl, "1;", ⟨"main.c", [.instruction (.mov (Register.general 0) (.immediate 1))]⟩, ?_, ?_,
        rfl⟩).2.2
    · decide +kernel
    · decide +kernel

end Command

end WordC
