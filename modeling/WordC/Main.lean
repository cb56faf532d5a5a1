import WordC.Command.Run

/-!
# The command line

Runs the command on the files of the system.
-/

namespace WordC.Command

/-- The reason for a failure in the words of the system, with its number. -/
def systemReason (code : UInt32) (reason : String) : String :=
  reason ++ " (os error " ++ toString code.toNat ++ ")"

/-- The fault that the system reports by a failure. -/
def systemFault : IO.Error → FileFault
  | .noFileOrDirectory _ _ _ => .missing
  | .inappropriateType _ code _ => if code = 20 then .notFolder else .isFolder
  | .resourceBusy _ _ => .busy
  | .invalidArgument _ code reason =>
    if code = 36 then .nameTooLong else .other (systemReason code reason)
  | .permissionDenied _ code reason | .resourceExhausted _ code reason
  | .alreadyExists _ code reason | .noSuchThing _ code reason => .other (systemReason code reason)
  | .otherError code reason => .other (systemReason code reason)
  | error => .other (toString error)

/-- An operation of the system with its failure as a value. -/
def attempt {α : Type} (action : IO α) : IO (Except FileFault α) := do
  try
    let a ← action
    pure (.ok a)
  catch error =>
    pure (.error (systemFault error))

/-- The files of the system. -/
def systemFiles : FileSystem IO where
  read path := attempt (IO.FS.readBinFile path)
  write path text := attempt (IO.FS.writeFile path text)
  rename source target := attempt (IO.FS.rename source target)
  remove path := attempt (IO.FS.removeFile path)

end WordC.Command

open WordC.Command in
/-- Compile the file named on the command line. -/
def main (words : List String) : IO UInt32 := do
  match Options.ofArguments? words with
  | none =>
    IO.eprintln "usage: [--verbose] [--dump tokens|ast|code] [--output OUTPUT] INPUT"
    pure 2
  | some options =>
    let outcome ← run systemFiles options
    IO.print outcome.stdout
    IO.eprint outcome.stderr
    pure outcome.exitCode
