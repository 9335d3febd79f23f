/-
  LabelWalks.Main
  ───────────────
  **THE PROGRAM.**

  The program reads its arguments and the settings file, hands them to the
  command with an empty folder at the working directory, and puts what the
  command left in the folder onto the disk before it prints.
-/
import LabelWalks.Bench.Command
import LabelWalks.Bench.Help

namespace LabelWalks.Bench

/-- The reason of a failed access to a file. -/
def problemOf : IO.Error → StorageProblem
  | .noFileOrDirectory .. | .noSuchThing .. => .notFound
  | .inappropriateType .. => .isDirectory
  | e => .refused (toString e)

/-- The octets of a file on the disk. -/
def readDisk (path : String) : IO (Except StorageProblem ByteArray) := do
  try
    return .ok (← IO.FS.readBinFile path)
  catch e =>
    return .error (problemOf e)

/-- Puts the folders and files of a folder onto the disk. -/
def store (folder : Folder) : IO Unit :=
  folder.nodes.toList.forM fun (names, node) => do
    let path := "/" ++ "/".intercalate names
    match node with
    | .folder => IO.FS.createDirAll path
    | .file content => IO.FS.writeFile path content

/-- Runs what the options ask for; the answer is the exit code. -/
def runOptions (o : Options) : IO UInt32 := do
  let content ← match o.config with
    | some path => readDisk path
    | none => pure (.error .notFound)
  let console : Console (StateT String IO) :=
    { clock := IO.monoNanosNow, print := fun s => modify (· ++ s) }
  let here := Path.components (← IO.currentDir).toString
  let job := command console .measured (fun _ => content) o
  let ((result, folder), printed) ← (job.run.run (.emptyAt here)).run ""
  store folder
  IO.print printed
  match result with
  | .ok _ => return 0
  | .error fault =>
    IO.eprintln ("metapath-bench failed: " ++ fault.message)
    return 1

/-- Why arguments are refused, in words. -/
def UsageError.text : UsageError → String
  | .invalidValue => "a value is not one of the possible ones"
  | .valueValidation => "a value does not read as a number"
  | .unknownArgument => "an argument is not known"
  | .argumentConflict => "an argument is given more than once"
  | .tooManyValues => "a flag is given a value"
  | .displayHelp _ => "help is asked for"

end LabelWalks.Bench

open LabelWalks.Bench in
/-- The entry point: exit code 2 for arguments that are refused. -/
def main (args : List String) : IO UInt32 := do
  match Options.ofArgs args with
  | .ok o => runOptions o
  | .error (.displayHelp full) =>
    IO.print (help full)
    return 0
  | .error e =>
    IO.eprintln ("error: " ++ e.text ++ "\n\nFor more information, try '--help'.")
    return 2
