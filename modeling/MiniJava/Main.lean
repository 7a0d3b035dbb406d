import MiniJava.CommandLine

/-!
# The program

Runs the command line against the files of the machine.
-/

set_option autoImplicit false

namespace MiniJava

/-- The number with which the machine reports a file on the way to another. -/
def notADirectoryCode : UInt32 := 20

/-- The cause that an error of the machine stands for.  A directory is found out by `dirAction`, all
else when the file is opened. -/
def fileCause (dirAction : String) (path : Text) : IO.Error → Cause
  | .noFileOrDirectory _ _ _ | .noSuchThing _ _ _ => .file "open" path .notFound
  | .inappropriateType _ code _ =>
    if code = notADirectoryCode then .file "open" path .notADirectory
    else .file dirAction path .isADirectory
  | e => .file "open" path (.other (toString e))

/-- The files of the machine. -/
def machine : FileSystem IO where
  read path := do
    try return .ok (Text.ofBytes (← IO.FS.readBinFile path.shown).data.toList)
    catch e => return .error (fileCause "read" path e)
  write path text := do
    try
      IO.FS.writeBinFile path.shown ⟨text.bytes.toArray⟩
      return .ok ()
    catch e => return .error (fileCause "open" path e)
  print text := do (← IO.getStdout).write ⟨text.bytes.toArray⟩

end MiniJava

/-- Runs the command line.  An error is printed, and makes the exit code one. -/
def main (args : List String) : IO UInt32 := do
  let mut env : List (String × String) := []
  for name in ["JMMC_REGALLOC", "JMMC_OUT"] do
    if let some value ← IO.getEnv name then env := (name, value) :: env
  let exit ← MiniJava.Command.execute MiniJava.machine args env
  if let some text := exit.message then IO.eprintln text
  return exit.code.toUInt32
