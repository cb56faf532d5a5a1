import WordC.Command.Path

/-!
# Files

What a command needs of files, as a record of operations in any monad, and a model of a directory
tree with these operations.

* `FileSystem`: read, write, rename and remove files by their paths
* `Directory`: a tree as a list of places with what is there
* `Directory.fileSystem`: the operations on the model
-/

namespace WordC

/-- Why an operation on a file fails. -/
inductive FileFault
  | missing | notFolder | isFolder | busy
  /-- A name, or a path as a whole, is longer than it can be. -/
  | nameTooLong
  /-- The bytes of a file are no text. -/
  | notText
  | other (reason : String)
deriving DecidableEq, Repr

/-- The wording of a fault. -/
def FileFault.message : FileFault → String
  | .missing => "No such file or directory (os error 2)"
  | .notFolder => "Not a directory (os error 20)"
  | .isFolder => "Is a directory (os error 21)"
  | .busy => "Device or resource busy (os error 16)"
  | .nameTooLong => "File name too long (os error 36)"
  | .notText => "stream did not contain valid UTF-8"
  | .other reason => reason

/-- Operations on files. -/
structure FileSystem (m : Type → Type) where
  /-- The content of a file. -/
  read : String → m (Except FileFault ByteArray)
  /-- Create a file or replace its content. -/
  write : String → String → m (Except FileFault Unit)
  /-- Move a file, over another one if there is one. -/
  rename : String → String → m (Except FileFault Unit)
  /-- Delete a file. -/
  remove : String → m (Except FileFault Unit)

/-- What is at a place in a tree. -/
inductive Entry
  | file (content : ByteArray)
  | folder

/-- Files are compared by their bytes. -/
instance : DecidableEq Entry
  | .file content, .file content' =>
    decidable_of_iff (content.data = content'.data) (by rw [Entry.file.injEq, ByteArray.ext_iff])
  | .folder, .folder => isTrue rfl
  | .file _, .folder => isFalse nofun
  | .folder, .file _ => isFalse nofun

/-- A tree of files and folders, given by all places below its top. -/
structure Directory where
  entries : List (List String × Entry)
deriving DecidableEq

namespace Directory

/-- What is at a place; the top is a folder. -/
def get? (dir : Directory) (place : List String) : Option Entry :=
  if place = [] then some .folder else dir.entries.lookup place

/-- A tree without what is at a place. -/
def erase (dir : Directory) (place : List String) : Directory :=
  ⟨dir.entries.filter fun entry => entry.1 ≠ place⟩

/-- A tree with something else at a place. -/
def put (dir : Directory) (place : List String) (entry : Entry) : Directory :=
  ⟨(dir.erase place).entries ++ [(place, entry)]⟩

/-! ### What the changes do to the places -/

theorem lookup_filter_ne (entries : List (List String × Entry)) (place other : List String) :
    (entries.filter fun entry => entry.1 ≠ place).lookup other =
      if place = other then none else entries.lookup other := by
  induction entries with
  | nil => simp
  | cons entry rest ih =>
    obtain ⟨key, value⟩ := entry
    by_cases hk : key = place
    · subst hk
      by_cases ho : key = other
      · simpa [ho] using ih
      · have : (other == key) = false := by simpa using fun e => ho e.symm
        simpa [ho, List.lookup_cons, this] using ih
    · by_cases ho : other = key
      · subst ho
        have : place ≠ other := fun e => hk e.symm
        simp [hk, this]
      · have : (other == key) = false := by simpa using ho
        simpa [hk, List.lookup_cons, this] using ih

/-- What is at a place after another one was emptied. -/
theorem get?_erase (dir : Directory) {place other : List String} (h : other ≠ []) :
    (dir.erase place).get? other = if place = other then none else dir.get? other := by
  simp only [get?, h, if_false, erase, lookup_filter_ne]

/-- What is at a place after something was put somewhere. -/
theorem get?_put (dir : Directory) {place other : List String} (entry : Entry) (h : other ≠ []) :
    (dir.put place entry).get? other = if place = other then some entry else dir.get? other := by
  simp only [get?, h, if_false, put, List.lookup_append, erase, lookup_filter_ne]
  by_cases ho : place = other
  · subst ho; simp
  · have : (other == place) = false := by simpa using fun e => ho e.symm
    simp [ho, List.lookup_cons, this]

/-! ### Paths and files -/

/-- Go from a place along names. All places on the way have to be folders, except the last. A name
is looked at only in a folder that is there, so of two faults the one further up counts. -/
def walk (dir : Directory) : List String → List String → Except FileFault (List String)
  | here, [] => .ok here
  | here, name :: rest =>
    if name = "" ∨ name = "." then walk dir here rest
    else if name = ".." then walk dir here.dropLast rest
    else if Path.exceeds Path.nameLimit name then .error .nameTooLong
    else if rest = [] then .ok (here ++ [name])
    else
      match dir.get? (here ++ [name]) with
      | some .folder => walk dir (here ++ [name]) rest
      | some (.file _) => .error .notFolder
      | none => .error .missing

/-- The place that a path leads to; the empty path leads nowhere. -/
def locate (dir : Directory) (path : String) : Except FileFault (List String) :=
  if path = "" then .error .missing
  else if Path.exceeds Path.pathLimit path then .error .nameTooLong
  else walk dir [] (Path.names path)

/-- The content of a file. -/
def read (dir : Directory) (path : String) : Except FileFault ByteArray :=
  match dir.locate path with
  | .error fault => .error fault
  | .ok place =>
    match dir.get? place with
    | none => .error .missing
    | some .folder => .error .isFolder
    | some (.file content) => .ok content

/-- The tree after creating a file or replacing its content. -/
def write (dir : Directory) (path text : String) : Except FileFault Directory :=
  match dir.locate path with
  | .error fault => .error fault
  | .ok place =>
    match dir.get? place with
    | some .folder => .error .isFolder
    | _ => .ok (dir.put place (.file text.toUTF8))

/-- Why nothing can be moved to a path, whatever is there: its last name is no name of a file. -/
def targetFault? (path : String) : Option FileFault :=
  match (Path.names path).reverse with
  | "" :: rest =>
    match rest.dropWhile (· = "") with
    | "." :: _ | ".." :: _ => some .busy
    | _ => some .notFolder
  | "." :: _ | ".." :: _ => some .busy
  | _ => none

/-- The tree after moving a file. -/
def rename (dir : Directory) (source target : String) : Except FileFault Directory :=
  match dir.locate source, dir.locate target, targetFault? target with
  | .error fault, _, _ => .error fault
  | _, .error fault, _ => .error fault
  | _, _, some fault => .error fault
  | .ok old, .ok new, none =>
    match dir.get? old, dir.get? new with
    | none, _ => .error .missing
    | _, some .folder => .error .isFolder
    | some entry, _ => .ok ((dir.erase old).put new entry)

/-- The tree after removing a file. -/
def remove (dir : Directory) (path : String) : Except FileFault Directory :=
  match dir.locate path with
  | .error fault => .error fault
  | .ok place =>
    match dir.get? place with
    | none => .error .missing
    | some .folder => .error .isFolder
    | some (.file _) => .ok (dir.erase place)

/-- Change the tree if an operation succeeds, and leave it as it is if not. -/
def update (change : Directory → Except FileFault Directory) :
    StateM Directory (Except FileFault Unit) := fun dir =>
  match change dir with
  | .ok dir => (.ok (), dir)
  | .error fault => (.error fault, dir)

/-- The operations on a tree. -/
def fileSystem : FileSystem (StateM Directory) where
  read path := fun dir => (dir.read path, dir)
  write path text := update fun dir => dir.write path text
  rename source target := update fun dir => dir.rename source target
  remove path := update fun dir => dir.remove path

end Directory

end WordC
