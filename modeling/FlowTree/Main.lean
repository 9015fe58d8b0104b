import FlowTree.CommandLine.Run

/-!
# FlowTree.Main

The command line program: reads the files that the arguments name, carries out the
command, prints and writes what comes of it.
-/

namespace FlowTree

/-- Why a file cannot be read or written, in the words of the operating system. -/
def reasonOf : IO.Error → String
  | .noFileOrDirectory _ _ _ => "No such file or directory (os error 2)"
  | .permissionDenied _ code details => details ++ " (os error " ++ toString code ++ ")"
  | .inappropriateType _ code details => details ++ " (os error " ++ toString code ++ ")"
  | .userError _ => "stream did not contain valid UTF-8"
  | error => toString error

/-- The text of a file, or why it cannot be read. -/
def readText (name : String) : IO (Except String String) := do
  try return .ok (← IO.FS.readFile name)
  catch error => return .error (reasonOf error)

end FlowTree

open FlowTree in
/-- Runs the program. -/
def main (words : List String) : IO UInt32 := do
  let texts ← (CommandLine.filesRead words).mapM fun name => return (name, ← readText name)
  let files : CommandLine.Files := fun name => (texts.lookup name).getD (.error "not read")
  let answer := CommandLine.run files words
  match answer.written with
  | none => pure ()
  | some (name, text) =>
    try IO.FS.writeFile name text
    catch error =>
      IO.eprint ("\nError: Failed to write '" ++ name ++ "': " ++ reasonOf error ++ "\n")
      return 1
  IO.print answer.output
  IO.eprint answer.errors
  return answer.exitCode.toUInt32
