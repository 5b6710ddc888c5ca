import GrammarFuzzing.Cli.Execute

/-!
# The program

The program reads the files that its command names, carries out the command, and prints and writes
what comes of it. Errors go to the error stream.
-/

namespace GrammarFuzzing

/-- The text of a file, if it can be read. -/
def readText? (path : String) : IO (Option String) :=
  try return some (← IO.FS.readFile path)
  catch _ => return none

/-- Writes files to a directory, which is made if it is missing. -/
def SavedFiles.write (s : SavedFiles) : IO Unit := do
  IO.FS.createDirAll s.directory
  for (name, content) in s.files do
    IO.FS.writeBinFile (s.directory ++ "/" ++ name) (ByteArray.mk content.toArray)

/-- Prints what comes of a command and writes its files. -/
def Outcome.deliver (o : Outcome) : IO (Except CommandError Unit) := do
  match o.saved with
  | some saved =>
    try saved.write
    catch _ => return .error (.unwritable saved.directory)
  | none => pure ()
  let out ← IO.getStdout
  out.putStr o.output
  out.flush
  return .ok ()

/-- A number of 64 bits that nobody could know before. -/
def entropy : IO Nat :=
  return (← IO.getRandomBytes 8).foldl (fun n b => 256 * n + b.toNat) 0

/-- Carries out a command line. -/
def runProgram (arguments : List String) : IO (Except CommandError Unit) := do
  match Command.ofArguments arguments with
  | .error e => return .error (.usage e)
  | .ok command =>
    let read ← command.files.mapM fun path => return (path, ← readText? path)
    let texts := fun path => (read.lookup path).join
    match command.execute texts (← entropy) with
    | .error e => return .error e
    | .ok outcome => outcome.deliver

end GrammarFuzzing

/-- The program, with what is left of its command line. -/
def main (arguments : List String) : IO UInt32 := do
  match ← GrammarFuzzing.runProgram arguments with
  | .ok () => return 0
  | .error e =>
    IO.eprintln ("Error: " ++ e.message)
    return UInt32.ofNat e.exitCode
