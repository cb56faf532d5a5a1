import WordC.Command.FileSystem
import WordC.Command.Options
import WordC.Compile
import WordC.Document.Program
import WordC.Document.Yaml

/-!
# Running the command

The command reads a source file, compiles it and writes the listing beside it or where it is told
to. The listing goes to a temporary file first, which then takes the place of the output.

* `produce`: from source text to the text of the listing, with what is shown on the way
* `run`: the whole command, on any file system
-/

namespace WordC.Command

/-- Why the command stops. -/
inductive Fault
  /-- The program is wrong. -/
  | source (d : Diagnostic)
  | file (fault : FileFault)
  /-- A dump cannot be written. -/
  | dump (reason : String)
deriving DecidableEq, Repr

namespace Fault

/-- The wording of a fault. -/
def message : Fault → String
  | .source d => d.cause.message
  | .file fault => "IO error: " ++ fault.message
  | .dump reason => "YAML error: " ++ reason

/-- Where in the source the fault is. -/
def position? : Fault → Option Position
  | .source d => some d.pos
  | _ => none

/-- The text shown on the terminal for a fault. -/
def report (source : String) (fault : Fault) : String :=
  match fault with
  | .source d => d.report source
  | fault => Diagnostic.headline fault.message

/-- A dump with a variant right inside a variant. -/
def nestedVariants : Fault := .dump "serializing nested enums in YAML is not supported yet"

end Fault

/-! ### Progress -/

/-- A result, or why there is none, and what was shown until then. -/
structure Progress (α : Type) where
  shown : String
  result : Except Fault α

namespace Progress

variable {α β : Type}

protected def pure (a : α) : Progress α := ⟨"", .ok a⟩

protected def bind (x : Progress α) (f : α → Progress β) : Progress β :=
  match x.result with
  | .error fault => ⟨x.shown, .error fault⟩
  | .ok a =>
    let y := f a
    ⟨x.shown ++ y.shown, y.result⟩

instance : Monad Progress where
  pure := Progress.pure
  bind := Progress.bind

/-- Show a text. -/
def display (text : String) : Progress Unit := ⟨text, .ok ()⟩

/-- Stop with a fault. -/
def stop (fault : Fault) : Progress α := ⟨"", .error fault⟩

/-- The result of compiling, as far as it goes. -/
def ofExcept : Except Diagnostic α → Progress α
  | .ok a => ⟨"", .ok a⟩
  | .error d => ⟨"", .error (.source d)⟩

end Progress

/-- Show lines if asked to. -/
def tell (asked : Bool) (lines : List String) : Progress Unit :=
  if asked then .display (Listing.unlines lines) else pure ()

/-- Show a document if asked to. -/
def dump (asked : Bool) (document : Document) : Progress Unit :=
  if asked then
    match document.yaml? with
    | some text => .display text
    | none => .stop .nestedVariants
  else pure ()

/-- Text in bold letters. -/
def strong (text : String) : String := Text.render [⟨.strong, text⟩]

/-- The lines about a listing: the listing in colours, and its labels. -/
def listingLines (listing : Listing) : List String :=
  listing.lines.map Line.styled ++
    ["  " ++ strong "labels" ++ ": " ++ ", ".intercalate listing.labels]

namespace Options

/-- Where the listing goes: the input with the extension `s`, if nothing else is given. -/
def target (options : Options) : String :=
  options.output.getD (Path.withExtension "s" options.input)

/-- Is this the stage to dump? -/
def dumps (options : Options) (stage : Stage) : Bool := options.dump = some stage

end Options

/-- The text of the listing of a source, with what is shown on the way. -/
def produce (options : Options) (source : String) : Progress String := do
  tell options.verbose
    [strong "CVM Compiler" ++ " by kanade-k-1228", "  < " ++ options.input, "1. Lex"]
  let tokens ← .ofExcept (Token.ofSource options.input source)
  dump (options.dumps .tokens) (.seq (tokens.map Token.document))
  tell options.verbose ["2. Parse"]
  let program ← .ofExcept (Program.ofTokens tokens)
  dump (options.dumps .tree) (.seq (stmtDocuments program))
  tell options.verbose ["3. Generate"]
  let listing ← .ofExcept (Listing.ofProgram options.input program)
  dump (options.dumps .code) listing.document
  tell options.verbose (listingLines listing ++
    ["4. Write", "  > " ++ Text.render [⟨.underlined, options.target⟩]])
  pure listing.text

/-! ### The command -/

/-- How the command ends. -/
structure Outcome where
  exitCode : UInt32
  stdout : String
  stderr : String
deriving DecidableEq, Repr

section Run

variable {m : Type → Type} [Monad m]

/-- The text of a source file. -/
def readSource (files : FileSystem m) (path : String) : m (Except FileFault String) := do
  match ← files.read path with
  | .error fault => pure (.error fault)
  | .ok bytes =>
    match String.fromUTF8? bytes with
    | some text => pure (.ok text)
    | none => pure (.error .notText)

/-- Write a file by way of a temporary one, which is gone in the end. -/
def writeOutput (files : FileSystem m) (path text : String) : m (Except FileFault Unit) := do
  let temporary := path ++ ".tmp"
  match ← files.write temporary text with
  | .error fault => pure (.error fault)
  | .ok _ =>
    match ← files.rename temporary path with
    | .ok _ => pure (.ok ())
    | .error fault =>
      let _ ← files.remove temporary
      pure (.error fault)

/-- The end of a command that failed. -/
def Outcome.failure (shown source : String) (fault : Fault) : Outcome :=
  ⟨1, shown, fault.report source⟩

/-- Read, compile and write. -/
def run (files : FileSystem m) (options : Options) : m Outcome := do
  match ← readSource files options.input with
  | .error fault => pure (.failure "" "" (.file fault))
  | .ok source =>
    let progress := produce options source
    match progress.result with
    | .error fault => pure (.failure progress.shown source fault)
    | .ok text =>
      match ← writeOutput files options.target text with
      | .error fault => pure (.failure progress.shown source (.file fault))
      | .ok _ => pure ⟨0, progress.shown, ""⟩

end Run

end WordC.Command
