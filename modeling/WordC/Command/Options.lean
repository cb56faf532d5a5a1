/-!
# Options of the command

What the command line asks for, and how the words of a command line are read.
-/

namespace WordC.Command

/-- The stages whose result can be dumped. -/
inductive Stage
  | tokens | tree | code
deriving DecidableEq, Repr

/-- The stage with a given name on the command line. -/
def Stage.ofName? : String → Option Stage
  | "tokens" => some .tokens
  | "ast" => some .tree
  | "code" => some .code
  | _ => none

/-- What the command line asks for. -/
structure Options where
  input : String
  /-- Where to write; beside the input if not given. -/
  output : Option String := none
  /-- Tell about progress and show the listing. -/
  verbose : Bool := false
  /-- The stage to dump. -/
  dump : Option Stage := none
deriving DecidableEq, Repr

/-- Options as far as they were read; the input may be missing. -/
structure PartialOptions where
  input : Option String := none
  output : Option String := none
  verbose : Bool := false
  dump : Option Stage := none

/-- Read the words of a command line into options read so far. -/
def PartialOptions.read (options : PartialOptions) : List String → Option PartialOptions
  | [] => some options
  | "-v" :: rest | "--verbose" :: rest => PartialOptions.read { options with verbose := true } rest
  | "-o" :: path :: rest | "--output" :: path :: rest =>
    PartialOptions.read { options with output := some path } rest
  | "-d" :: name :: rest | "--dump" :: name :: rest =>
    match Stage.ofName? name with
    | some stage => PartialOptions.read { options with dump := some stage } rest
    | none => none
  | word :: rest =>
    if options.input.isNone && word.toList.head? ≠ some '-' then
      PartialOptions.read { options with input := some word } rest
    else none

/-- The options that the words of a command line ask for. -/
def Options.ofArguments? (words : List String) : Option Options :=
  match PartialOptions.read {} words with
  | some ⟨some input, output, verbose, dump⟩ => some ⟨input, output, verbose, dump⟩
  | _ => none

end WordC.Command
