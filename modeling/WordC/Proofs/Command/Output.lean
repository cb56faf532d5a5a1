import WordC.Proofs.Command.Dumps
import WordC.Proofs.Command.Places

/-!
# What the command does to the directory

The listing goes to a temporary file beside the output, which then takes the place of the output, or
is removed if it cannot.

* `writeOutput_of_folder`, `writeOutput_of_file`: what is at every place behind either end of this;
* `Command.run_isIntact_iff`: a run leaves all that was there as it was, apart from the output of a
  successful one, unless it writes and there was a file under the name of the temporary before. That
  file is lost then, and be it the input.
-/

namespace WordC

namespace Directory

variable (dir : Directory)

/-- What is at any place after something was put below the top. -/
theorem get?_put_of_ne_nil {place : List String} (h : place ≠ []) (entry : Entry)
    (other : List String) :
    (dir.put place entry).get? other = if place = other then some entry else dir.get? other := by
  by_cases htop : other = []
  · subst htop
    simp [get?, h]
  · exact get?_put dir entry htop

/-- What is at any place after one below the top was emptied. -/
theorem get?_erase_of_ne_nil {place : List String} (h : place ≠ []) (other : List String) :
    (dir.erase place).get? other = if place = other then none else dir.get? other := by
  by_cases htop : other = []
  · subst htop
    simp [get?, h]
  · exact get?_erase dir htop

theorem ne_nil_of_get? {place : List String} (h : dir.get? place ≠ some .folder) : place ≠ [] := by
  rintro rfl
  simp [get?] at h

theorem write_of_file {path : String} {place : List String} (text : String)
    (h : dir.locate path = .ok place) (hfile : dir.get? place ≠ some .folder) :
    dir.write path text = .ok (dir.put place (.file text.toUTF8)) := by
  simp only [write, h]

/-- A file can be moved unless the target leads nowhere or to a folder. -/
theorem rename_cases (target : String) {source : String} {old : List String} {entry : Entry}
    (h : dir.locate source = .ok old) (hentry : dir.get? old = some entry) :
    (∃ fault, dir.rename source target = .error fault) ∨
      ∃ new, dir.locate target = .ok new ∧ dir.get? new ≠ some .folder ∧
        dir.rename source target = .ok ((dir.erase old).put new entry) := by
  simp only [rename, h]
  cases htarget : dir.locate target with
  | error fault => exact .inl ⟨fault, rfl⟩
  | ok new =>
    cases targetFault? target with
    | some fault => exact .inl ⟨fault, rfl⟩
    | none =>
      simp only [hentry]
      cases hnew : dir.get? new with
      | none => exact .inr ⟨new, rfl, by simp [hnew], rfl⟩
      | some entry' =>
        cases entry' with
        | folder => exact .inl ⟨.isFolder, rfl⟩
        | file content => exact .inr ⟨new, rfl, by simp [hnew], rfl⟩

theorem remove_of_file {path : String} {place : List String} {content : ByteArray}
    (h : dir.locate path = .ok place) (hfile : dir.get? place = some (.file content)) :
    dir.remove path = .ok (dir.erase place) := by
  simp only [remove, h, hfile]

/-- The text of a file. -/
def text (path : String) : Except FileFault String :=
  match dir.read path with
  | .error fault => .error fault
  | .ok bytes =>
    match String.fromUTF8? bytes with
    | some text => .ok text
    | none => .error .notText

end Directory

namespace Command

open Directory

/-! ### The operations on a tree -/

theorem readSource_apply (path : String) (dir : Directory) :
    readSource fileSystem path dir = (dir.text path, dir) := by
  unfold Directory.text
  simp only [readSource, fileSystem, bind, StateT.bind]
  cases dir.read path with
  | error fault => rfl
  | ok bytes => cases h : String.fromUTF8? bytes <;> simp [h] <;> rfl

theorem writeOutput_apply (path text : String) (dir : Directory) :
    writeOutput fileSystem path text dir =
      match dir.write (path ++ ".tmp") text with
      | .error fault => (.error fault, dir)
      | .ok written =>
        match written.rename (path ++ ".tmp") path with
        | .ok moved => (.ok (), moved)
        | .error fault =>
          match written.remove (path ++ ".tmp") with
          | .ok removed => (.error fault, removed)
          | .error _ => (.error fault, written) := by
  cases hwrite : dir.write (path ++ ".tmp") text with
  | error fault =>
    simp only [writeOutput, fileSystem, update, bind, StateT.bind, hwrite]
    rfl
  | ok written =>
    cases hrename : written.rename (path ++ ".tmp") path with
    | ok moved =>
      simp only [writeOutput, fileSystem, update, bind, StateT.bind, hwrite, hrename]
      rfl
    | error fault =>
      simp only [writeOutput, fileSystem, update, bind, StateT.bind, hwrite, hrename]
      cases written.remove (path ++ ".tmp") <;> rfl

/-! ### Writing the output -/

section Writing

variable {dir : Directory} {path : String} {place : List String}

/-- If there is no place for the temporary, nothing happens. -/
theorem writeOutput_of_folder (text : String)
    (h : ∀ place, dir.locate (path ++ ".tmp") = .ok place → dir.get? place = some .folder) :
    ∃ fault, writeOutput fileSystem path text dir = (.error fault, dir) := by
  have hwrite : ∃ fault, dir.write (path ++ ".tmp") text = .error fault := by
    unfold Directory.write
    cases hplace : dir.locate (path ++ ".tmp") with
    | error fault => exact ⟨fault, rfl⟩
    | ok place => exact ⟨.isFolder, by simp only [h place hplace]⟩
  obtain ⟨fault, hfault⟩ := hwrite
  exact ⟨fault, by simp only [writeOutput_apply, hfault]⟩

/-- If there is a place for the temporary, it is empty in the end, and the output has the text if
the temporary could be moved there. -/
theorem writeOutput_of_file (text : String) (h : dir.locate (path ++ ".tmp") = .ok place)
    (hfile : dir.get? place ≠ some .folder) :
    (∃ fault after, writeOutput fileSystem path text dir = (.error fault, after) ∧
      ∀ other, after.get? other = if place = other then none else dir.get? other) ∨
    ∃ output after, dir.locate path = .ok output ∧ output ≠ place ∧
      writeOutput fileSystem path text dir = (.ok (), after) ∧
      ∀ other, after.get? other = if output = other then some (.file text.toUTF8)
        else if place = other then none else dir.get? other := by
  have htop := dir.ne_nil_of_get? hfile
  have hwrite := dir.write_of_file text h hfile
  obtain ⟨htemporary, hpath⟩ := locate_put_temporary text.toUTF8 h hfile
  have hget := dir.get?_put_of_ne_nil htop (.file text.toUTF8)
  -- from here on it only matters what is at each place of the written tree
  generalize dir.put place (.file text.toUTF8) = written at hwrite htemporary hpath hget
  have hself : written.get? place = some (.file text.toUTF8) := by rw [hget, if_pos rfl]
  have herase : ∀ other, (written.erase place).get? other =
      if place = other then none else dir.get? other := by
    intro other
    rw [written.get?_erase_of_ne_nil htop, hget]
    split <;> rfl
  rcases written.rename_cases path htemporary hself with
    ⟨fault, hfault⟩ | ⟨output, houtput, hfolder, hmoved⟩
  · refine .inl ⟨fault, written.erase place, ?_, herase⟩
    simp only [writeOutput_apply, hwrite, hfault, written.remove_of_file htemporary hself]
  · rw [hpath] at houtput
    refine .inr ⟨output, (written.erase place).put output (.file text.toUTF8), houtput,
      locate_ne_temporary h houtput, ?_, fun other => ?_⟩
    · simp only [writeOutput_apply, hwrite, hmoved]
    · rw [get?_put_of_ne_nil _ (written.ne_nil_of_get? hfolder), herase]

end Writing

/-! ### Whole runs -/

/-- The command on a tree: how it ends, and the tree it leaves. -/
def runIn (options : Options) (dir : Directory) : Outcome × Directory :=
  run fileSystem options dir

theorem runIn_eq (options : Options) (dir : Directory) :
    runIn options dir =
      match dir.text options.input with
      | .error fault => (.failure "" "" (.file fault), dir)
      | .ok source =>
        match (produce options source).result with
        | .error fault => (.failure (produce options source).shown source fault, dir)
        | .ok text =>
          match writeOutput fileSystem options.target text dir with
          | (.error fault, after) =>
            (.failure (produce options source).shown source (.file fault), after)
          | (.ok _, after) => (⟨0, (produce options source).shown, ""⟩, after) := by
  simp only [runIn, run, bind, StateT.bind, readSource_apply]
  cases dir.text options.input with
  | error fault => rfl
  | ok source =>
    cases hresult : (produce options source).result with
    | error fault =>
      simp only [hresult]
      rfl
    | ok text =>
      simp only [hresult, StateT.bind]
      cases writeOutput fileSystem options.target text dir with
      | mk written after => cases written <;> rfl

/-- The command gets as far as writing this text. -/
def Writes (options : Options) (dir : Directory) (text : String) : Prop :=
  ∃ source, dir.text options.input = .ok source ∧ (produce options source).result = .ok text

/-- The temporary of a run is at a place where a file was before. -/
def Overwrites (options : Options) (dir : Directory) (place : List String) : Prop :=
  (∃ text, Writes options dir text) ∧ dir.locate (options.target ++ ".tmp") = .ok place ∧
    ∃ content, dir.get? place = some (.file content)

/-- A failed run leaves everything as it was, and a successful one everything but the output, which
has the text of the listing; what was at the lost places does not count. -/
def IsIntact (lost : List (List String)) (options : Options) (dir : Directory) : Prop :=
  ((runIn options dir).1.exitCode ≠ 0 →
    ∀ place ∉ lost, (runIn options dir).2.get? place = dir.get? place) ∧
  ((runIn options dir).1.exitCode = 0 →
    ∃ source listing output, dir.text options.input = .ok source ∧
      compile options.input source = .ok listing ∧ dir.locate options.target = .ok output ∧
      (runIn options dir).2.get? output = some (.file listing.text.toUTF8) ∧
      ∀ place ∉ lost, place ≠ output → (runIn options dir).2.get? place = dir.get? place)

variable {options : Options} {dir : Directory} {place : List String} {text : String}

/-- The text that is written is that of the listing. -/
theorem Writes.listing (h : Writes options dir text) : ∃ source listing,
    dir.text options.input = .ok source ∧ compile options.input source = .ok listing ∧
      text = listing.text := by
  obtain ⟨source, hsource, hresult⟩ := h
  rw [result_produce] at hresult
  cases hcompile : compile options.input source with
  | error d => simp [hcompile] at hresult
  | ok listing =>
    simp only [hcompile] at hresult
    split at hresult
    · cases hresult
    · exact ⟨source, listing, hsource, hcompile, (Except.ok.inj hresult).symm⟩

theorem Writes.runIn_eq (h : Writes options dir text) : ∃ source, runIn options dir =
    match writeOutput fileSystem options.target text dir with
    | (.error fault, after) =>
      (.failure (produce options source).shown source (.file fault), after)
    | (.ok _, after) => (⟨0, (produce options source).shown, ""⟩, after) := by
  obtain ⟨source, hsource, hresult⟩ := h
  exact ⟨source, by simp only [Command.runIn_eq, hsource, hresult]⟩

/-- A run that does not get as far as writing fails and leaves the tree as it is. -/
theorem runIn_of_not_writes (h : ∀ text, ¬ Writes options dir text) :
    (runIn options dir).1.exitCode = 1 ∧ (runIn options dir).2 = dir := by
  rw [runIn_eq]
  cases hsource : dir.text options.input with
  | error fault => exact ⟨rfl, rfl⟩
  | ok source =>
    cases hresult : (produce options source).result with
    | error fault =>
      simp only [hresult]
      exact ⟨rfl, trivial⟩
    | ok text => exact absurd ⟨source, hsource, hresult⟩ (h text)

/-- Nor does one whose temporary has no place. -/
theorem Writes.runIn_of_folder (h : Writes options dir text)
    (hfolder : ∀ place, dir.locate (options.target ++ ".tmp") = .ok place →
      dir.get? place = some .folder) :
    (runIn options dir).1.exitCode = 1 ∧ (runIn options dir).2 = dir := by
  obtain ⟨source, hrun⟩ := h.runIn_eq
  obtain ⟨fault, hfault⟩ := writeOutput_of_folder text hfolder
  rw [hrun, hfault]
  exact ⟨rfl, rfl⟩

/-- A run whose temporary has a place leaves that place empty. -/
theorem Writes.runIn_of_file (h : Writes options dir text)
    (hplace : dir.locate (options.target ++ ".tmp") = .ok place)
    (hfile : dir.get? place ≠ some .folder) :
    ((runIn options dir).1.exitCode = 1 ∧ ∀ other, (runIn options dir).2.get? other =
      if place = other then none else dir.get? other) ∨
    ((runIn options dir).1.exitCode = 0 ∧ ∃ output, dir.locate options.target = .ok output ∧
      output ≠ place ∧ ∀ other, (runIn options dir).2.get? other =
        if output = other then some (.file text.toUTF8)
        else if place = other then none else dir.get? other) := by
  obtain ⟨source, hrun⟩ := h.runIn_eq
  rw [hrun]
  rcases writeOutput_of_file text hplace hfile with ⟨fault, after, hwrite, hafter⟩ | ⟨output, after,
    houtput, hne, hwrite, hafter⟩
  · rw [hwrite]
    exact .inl ⟨rfl, hafter⟩
  · rw [hwrite]
    exact .inr ⟨rfl, output, houtput, hne, hafter⟩

/-- A run that empties the place of its temporary leaves everything else as it was. -/
theorem Writes.isIntact (h : Writes options dir text)
    (hplace : dir.locate (options.target ++ ".tmp") = .ok place)
    (hfile : dir.get? place ≠ some .folder) :
    IsIntact [place] options dir ∧ (runIn options dir).2.get? place = none := by
  obtain ⟨source, listing, hsource, hcompile, rfl⟩ := h.listing
  rcases h.runIn_of_file hplace hfile with ⟨hexit, hafter⟩ | ⟨hexit, output, houtput, hne, hafter⟩
  · refine ⟨⟨fun _ other hother => ?_, fun hzero => ?_⟩, by rw [hafter, if_pos rfl]⟩
    · rw [hafter, if_neg (by simpa [eq_comm] using hother)]
    · rw [hexit] at hzero
      cases hzero
  · refine ⟨⟨fun hfail => absurd hexit hfail, fun _ => ?_⟩, by
      rw [hafter, if_neg hne, if_pos rfl]⟩
    refine ⟨source, listing, output, hsource, hcompile, houtput, by rw [hafter, if_pos rfl], ?_⟩
    intro other hother houtput'
    rw [hafter, if_neg (Ne.symm houtput'), if_neg (by simpa [eq_comm] using hother)]

/-- Where nothing was at the place of the temporary, leaving it empty changes nothing. -/
theorem IsIntact.of_empty (h : IsIntact [place] options dir)
    (hafter : (runIn options dir).2.get? place = none) (hempty : dir.get? place = none) :
    IsIntact [] options dir := by
  have hall : ∀ other, (other ∉ [place] →
      (runIn options dir).2.get? other = dir.get? other) →
      (runIn options dir).2.get? other = dir.get? other := by
    intro other hother
    by_cases heq : other = place
    · rw [heq, hafter, hempty]
    · exact hother (by simpa using heq)
  refine ⟨fun hfail other _ => hall other (h.1 hfail other), fun hzero => ?_⟩
  obtain ⟨source, listing, output, hsource, hcompile, houtput, htext, hothers⟩ := h.2 hzero
  exact ⟨source, listing, output, hsource, hcompile, houtput, htext,
    fun other _ hne => hall other fun hother => hothers other hother hne⟩

/-- A run that leaves everything intact has not emptied a place that was none of its output. -/
theorem Overwrites.not_isIntact (h : Overwrites options dir place) :
    ¬ IsIntact [] options dir := by
  obtain ⟨⟨text, hwrites⟩, hplace, content, hcontent⟩ := h
  have hfile : dir.get? place ≠ some .folder := by simp [hcontent]
  obtain ⟨-, hempty⟩ := hwrites.isIntact hplace hfile
  intro hintact
  rcases hwrites.runIn_of_file hplace hfile with
    ⟨hexit, hafter⟩ | ⟨hexit, output, houtput, hne, hafter⟩
  · have hsame := hintact.1 (by rw [hexit]; decide) place (by simp)
    rw [hempty, hcontent] at hsame
    cases hsame
  · -- the output is elsewhere, so the lost file is one of those that should have stayed
    obtain ⟨-, -, output', -, -, houtput', -, hothers⟩ := hintact.2 hexit
    rw [houtput] at houtput'
    cases houtput'
    have hsame := hothers place (by simp) (Ne.symm hne)
    rw [hempty, hcontent] at hsame
    cases hsame

/-- A failed run that changes nothing. -/
theorem isIntact_of_unchanged
    (h : (runIn options dir).1.exitCode = 1 ∧ (runIn options dir).2 = dir) :
    IsIntact [] options dir := by
  obtain ⟨hexit, hsame⟩ := h
  refine ⟨fun _ place _ => by rw [hsame], fun hzero => ?_⟩
  rw [hexit] at hzero
  cases hzero

/-- A run leaves the tree as it was, except for the output of a successful one, exactly if it does
not put its temporary in the place of a file. If it does, that file is lost, and nothing else. -/
theorem run_isIntact_iff (options : Options) (dir : Directory) :
    (IsIntact [] options dir ↔ ∀ place, ¬ Overwrites options dir place) ∧
      ∀ place, Overwrites options dir place →
        IsIntact [place] options dir ∧ (runIn options dir).2.get? place = none := by
  refine ⟨⟨fun h place hplace => hplace.not_isIntact h, fun h => ?_⟩, ?_⟩
  · by_cases hwrites : ∃ text, Writes options dir text
    · obtain ⟨text, htext⟩ := hwrites
      cases hplace : dir.locate (options.target ++ ".tmp") with
      | error fault => exact isIntact_of_unchanged (htext.runIn_of_folder (by simp [hplace]))
      | ok place =>
        -- there may be nothing at the place of the temporary, a folder, or a file
        cases hentry : dir.get? place with
        | none =>
          obtain ⟨hintact, hafter⟩ := htext.isIntact hplace (by simp [hentry])
          exact hintact.of_empty hafter hentry
        | some entry =>
          cases entry with
          | folder =>
            have hfolder : ∀ other, dir.locate (options.target ++ ".tmp") = .ok other →
                dir.get? other = some .folder := by
              intro other hother
              rw [hplace] at hother
              cases hother
              exact hentry
            exact isIntact_of_unchanged (htext.runIn_of_folder hfolder)
          | file content => exact absurd ⟨⟨text, htext⟩, hplace, content, hentry⟩ (h place)
    · exact isIntact_of_unchanged (runIn_of_not_writes (not_exists.1 hwrites))
  · rintro place ⟨⟨text, htext⟩, hplace, content, hcontent⟩
    exact htext.isIntact hplace (by simp [hcontent])

/-- A folder, and a source file under the name of the temporary of an output in its place. -/
def sourceBesideFolder : Directory :=
  ⟨[(["out"], .folder), (["out.tmp"], .file "int x;".toUTF8)]⟩

/-- The input that is lost when the output cannot be written, and when it can. -/
theorem run_isIntact_input_lost :
    (runIn { input := "out.tmp", output := some "out" } sourceBesideFolder =
        (⟨1, "", Diagnostic.headline "IO error: Is a directory (os error 21)"⟩,
          ⟨[(["out"], .folder)]⟩) ∧
      ¬ IsIntact [] { input := "out.tmp", output := some "out" } sourceBesideFolder) ∧
    runIn { input := "a.s.tmp", output := some "a.s" }
        ⟨[(["a.s.tmp"], .file "int x;".toUTF8)]⟩ =
      (⟨0, "", ""⟩, ⟨[(["a.s"], .file "# a.s.tmp\n.x:\n\tres 2\n".toUTF8)]⟩) ∧
    ¬ IsIntact [] { input := "a.s.tmp", output := some "a.s" }
        ⟨[(["a.s.tmp"], .file "int x;".toUTF8)]⟩ := by
  have hfail : runIn { input := "out.tmp", output := some "out" } sourceBesideFolder =
      (⟨1, "", Diagnostic.headline "IO error: Is a directory (os error 21)"⟩,
        ⟨[(["out"], .folder)]⟩) := by decide +kernel
  have hwrite : runIn { input := "a.s.tmp", output := some "a.s" }
        ⟨[(["a.s.tmp"], .file "int x;".toUTF8)]⟩ =
      (⟨0, "", ""⟩, ⟨[(["a.s"], .file "# a.s.tmp\n.x:\n\tres 2\n".toUTF8)]⟩) := by
    decide +kernel
  refine ⟨⟨hfail, fun h => ?_⟩, hwrite, fun h => ?_⟩
  · have hsame := h.1 (by rw [hfail]; decide) ["out.tmp"] (by simp)
    rw [hfail] at hsame
    exact absurd hsame (by decide)
  · obtain ⟨-, -, output, -, -, houtput, -, hothers⟩ := h.2 (by rw [hwrite])
    have hplace : output = ["a.s"] := by
      rw [show Directory.locate _ _ = .ok ["a.s"] from by decide +kernel] at houtput
      exact (Except.ok.inj houtput).symm
    have hsame := hothers ["a.s.tmp"] (by simp) (by rw [hplace]; decide)
    rw [hwrite] at hsame
    exact absurd hsame (by decide)

/-- A source beside which there is nothing else, and the two files of the example above. -/
theorem run_isIntact_iff_beside :
    IsIntact [] { input := "a.c" } ⟨[(["a.c"], .file "int x;".toUTF8)]⟩ ∧
      IsIntact [["out.tmp"]] { input := "out.tmp", output := some "out" } sourceBesideFolder ∧
      (runIn { input := "out.tmp", output := some "out" } sourceBesideFolder).2.get? ["out.tmp"] =
        none := by
  constructor
  · refine (run_isIntact_iff { input := "a.c" } ⟨[(["a.c"], .file "int x;".toUTF8)]⟩).1.2 ?_
    rintro place ⟨-, hplace, content, hcontent⟩
    rw [show Directory.locate _ _ = .ok ["a.s.tmp"] from by decide +kernel] at hplace
    cases hplace
    cases hcontent
  · refine (run_isIntact_iff _ _).2 ["out.tmp"]
      ⟨⟨"# out.tmp\n.x:\n\tres 2\n", "int x;", ?_, ?_⟩, ?_, "int x;".toUTF8, rfl⟩
    · decide +kernel
    · decide +kernel
    · decide +kernel

end Command

end WordC
