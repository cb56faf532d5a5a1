import WordC.Command.FileSystem

/-!
# Where a path leads

A path goes through folders to its last name (`Directory.enter`, `Directory.arrive`). Two paths that
differ in the last name only go through the same folders, so a file put where one of them leads does
not change where the other one leads. This is the case of an output and the temporary file beside
it:

* `Directory.locate_temporary`: the temporary is in the folder of the output, under its own name;
* `Directory.locate_ne_temporary`: so the two are at different places;
* `Directory.locate_put_temporary`: and writing the one leaves the way to the other as it is.
-/

namespace WordC

/-! ### Names of a path -/

namespace Path

theorem split_of_not_mem {cs : List Char} (h : '/' ∉ cs) : split cs = [cs] := by
  induction cs with
  | nil => rfl
  | cons c cs ih =>
    rw [List.mem_cons, not_or] at h
    simp [split, Ne.symm h.1, ih h.2]

/-- Characters behind a path that are no slash belong to its last name. -/
theorem split_append {ds : List Char} (h : '/' ∉ ds) (cs : List Char) :
    ∃ front last, split cs = front ++ [last] ∧ split (cs ++ ds) = front ++ [last ++ ds] := by
  induction cs with
  | nil => exact ⟨[], [], rfl, split_of_not_mem h⟩
  | cons c cs ih =>
    obtain ⟨front, last, hcs, happend⟩ := ih
    by_cases hc : c = '/'
    · exact ⟨[] :: front, last, by simp [split, hc, hcs], by simp [split, hc, happend]⟩
    · cases front with
      | nil => exact ⟨[], c :: last, by simp [split, hc, hcs], by simp [split, hc, happend]⟩
      | cons name front =>
        exact ⟨(c :: name) :: front, last, by simp [split, hc, hcs], by simp [split, hc, happend]⟩

theorem names_append (path : String) {suffix : String} (h : '/' ∉ suffix.toList) :
    ∃ front last, names path = front ++ [last] ∧
      names (path ++ suffix) = front ++ [last ++ suffix] := by
  obtain ⟨front, last, hpath, happend⟩ := split_append h path.toList
  refine ⟨front.map String.ofList, String.ofList last, by simp [names, hpath], ?_⟩
  simp [names, happend, String.ofList_append]

end Path

namespace Directory

variable {dir dir' : Directory}

/-! ### Folders on the way -/

/-- Go from a place along names that have to be folders, all of them. -/
def enter (dir : Directory) : List String → List String → Except FileFault (List String)
  | here, [] => .ok here
  | here, name :: rest =>
    if name = "" ∨ name = "." then enter dir here rest
    else if name = ".." then enter dir here.dropLast rest
    else if Path.exceeds Path.nameLimit name then .error .nameTooLong
    else
      match dir.get? (here ++ [name]) with
      | some .folder => enter dir (here ++ [name]) rest
      | some (.file _) => .error .notFolder
      | none => .error .missing

/-- The place of a name in a folder, whatever is there. -/
def arrive (here : List String) (name : String) : Except FileFault (List String) :=
  if name = "" ∨ name = "." then .ok here
  else if name = ".." then .ok here.dropLast
  else if Path.exceeds Path.nameLimit name then .error .nameTooLong
  else .ok (here ++ [name])

/-- A walk goes into folders, up to the last name. -/
theorem walk_concat (dir : Directory) (last : String) : ∀ (here front : List String),
    dir.walk here (front ++ [last]) = (dir.enter here front).bind (arrive · last)
  | here, [] => by
    simp [walk, enter, arrive, Except.bind]
  | here, name :: front => by
    have hrest : front ++ [last] ≠ [] := by simp
    simp only [List.cons_append, walk, enter, hrest, if_false]
    by_cases hdot : name = "" ∨ name = "."
    · simpa only [if_pos hdot] using walk_concat dir last here front
    · by_cases hup : name = ".."
      · simpa only [if_neg hdot, if_pos hup] using walk_concat dir last here.dropLast front
      · by_cases hlong : Path.exceeds Path.nameLimit name = true
        · simp only [if_neg hdot, if_neg hup, if_pos hlong, Except.bind]
        · simp only [if_neg hdot, if_neg hup, if_neg hlong]
          cases dir.get? (here ++ [name]) with
          | none => rfl
          | some entry =>
            cases entry with
            | file content => rfl
            | folder => exact walk_concat dir last (here ++ [name]) front

/-- Where all folders stay, the way through them stays. -/
theorem enter_of_folders (hfolders : ∀ place, dir.get? place = some .folder →
      dir'.get? place = some .folder) : ∀ {here front there : List String},
    dir.enter here front = .ok there → dir'.enter here front = .ok there
  | here, [], there, h => h
  | here, name :: front, there, h => by
    simp only [enter] at h ⊢
    by_cases hdot : name = "" ∨ name = "."
    · simp only [if_pos hdot] at h ⊢
      exact enter_of_folders hfolders h
    · by_cases hup : name = ".."
      · simp only [if_neg hdot, if_pos hup] at h ⊢
        exact enter_of_folders hfolders h
      · by_cases hlong : Path.exceeds Path.nameLimit name = true
        · simp [if_neg hdot, if_neg hup, if_pos hlong] at h
        · simp only [if_neg hdot, if_neg hup, if_neg hlong] at h ⊢
          cases hentry : dir.get? (here ++ [name]) with
          | none => simp [hentry] at h
          | some entry =>
            cases entry with
            | file content => simp [hentry] at h
            | folder =>
              simp only [hentry] at h
              simp only [hfolders _ hentry]
              exact enter_of_folders hfolders h

/-! ### A temporary file beside an output -/

theorem walk_of_locate {path : String} {place : List String} (h : dir.locate path = .ok place) :
    dir.walk [] (Path.names path) = .ok place := by
  unfold locate at h
  split at h
  · cases h
  · split at h
    · cases h
    · exact h

theorem arrive_temporary {here place : List String} {name : String}
    (h : arrive here (name ++ ".tmp") = .ok place) : place = here ++ [name ++ ".tmp"] := by
  have hlength : (name ++ ".tmp").length = name.length + 4 :=
    String.length_append _ _
  have hne : ∀ dots : String, dots.length < 4 → name ++ ".tmp" ≠ dots := by
    rintro dots hdots rfl
    omega
  have hdot : ¬ (name ++ ".tmp" = "" ∨ name ++ ".tmp" = ".") :=
    not_or.2 ⟨hne "" (by decide), hne "." (by decide)⟩
  rw [arrive, if_neg hdot, if_neg (hne ".." (by decide))] at h
  split at h
  · cases h
  · cases h
    rfl

/-- The temporary beside an output is in the same folder, under the name with `.tmp` behind it. -/
theorem locate_temporary {path : String} {place : List String}
    (h : dir.locate (path ++ ".tmp") = .ok place) :
    ∃ front last here, Path.names path = front ++ [last] ∧
      Path.names (path ++ ".tmp") = front ++ [last ++ ".tmp"] ∧
      dir.enter [] front = .ok here ∧ place = here ++ [last ++ ".tmp"] := by
  have hslash : '/' ∉ ".tmp".toList := by decide
  obtain ⟨front, last, hpath, htemporary⟩ := Path.names_append path hslash
  have hwalk := walk_of_locate h
  rw [htemporary, walk_concat] at hwalk
  cases henter : dir.enter [] front with
  | error fault => simp [henter, Except.bind] at hwalk
  | ok here =>
    rw [henter] at hwalk
    exact ⟨front, last, here, hpath, htemporary, henter, arrive_temporary hwalk⟩

/-- An output and the temporary beside it are at different places. -/
theorem locate_ne_temporary {path : String} {place output : List String}
    (h : dir.locate (path ++ ".tmp") = .ok place) (houtput : dir.locate path = .ok output) :
    output ≠ place := by
  obtain ⟨front, last, here, hpath, -, henter, rfl⟩ := locate_temporary h
  have hwalk := walk_of_locate houtput
  rw [hpath, walk_concat, henter] at hwalk
  simp only [Except.bind, arrive] at hwalk
  intro heq
  subst heq
  -- the output is the folder itself, the folder above it, or another name in it
  have hlength : (last ++ ".tmp").length = last.length + 4 :=
    String.length_append _ _
  split at hwalk
  · simp at hwalk
  · split at hwalk
    · have heq := congrArg List.length (Except.ok.inj hwalk)
      simp only [List.length_dropLast, List.length_append, List.length_singleton] at heq
      omega
    · split at hwalk
      · cases hwalk
      · have heq := List.singleton_inj.1 (List.append_cancel_left (Except.ok.inj hwalk))
        rw [← heq] at hlength
        omega

/-- A file put at the place of the temporary, where there is no folder, changes neither the way to
it nor the way to the output. -/
theorem locate_put_temporary {path : String} {place : List String} (content : ByteArray)
    (h : dir.locate (path ++ ".tmp") = .ok place) (hfile : dir.get? place ≠ some .folder) :
    (dir.put place (.file content)).locate (path ++ ".tmp") = .ok place ∧
      (dir.put place (.file content)).locate path = dir.locate path := by
  obtain ⟨front, last, here, hpath, htemporary, henter, rfl⟩ := locate_temporary h
  have hfolders : ∀ other, dir.get? other = some .folder →
      (dir.put (here ++ [last ++ ".tmp"]) (.file content)).get? other = some .folder := by
    intro other hother
    by_cases htop : other = []
    · simp [htop, get?]
    · rw [get?_put dir _ htop, if_neg, hother]
      rintro rfl
      exact hfile hother
  have henter' := enter_of_folders hfolders henter
  constructor
  · rw [← h]
    simp only [locate, htemporary, walk_concat, henter, henter']
  · simp only [locate, hpath, walk_concat, henter, henter']

end Directory

end WordC
