import Std.Time.DateTime.Timestamp
import TaintFlow.Command

/-!
The program. It reads the files that its command line names, runs the command on them, and prints
and writes what the command comes to.
-/

namespace TaintFlow

/-- The text of a file, if it can be read and holds text. -/
def readText (path : String) : IO (Option String) := do
  try return String.fromUTF8? (← IO.FS.readBinFile path)
  catch _ => return none

/-- The JSON files among some directory entries and below them, by their components. -/
partial def jsonFilesBelow (here : List String) (entries : Array IO.FS.DirEntry) :
    IO (List (List String)) := do
  let mut found := []
  for e in entries do
    let name := here ++ [e.fileName]
    let type := (← e.path.symlinkMetadata).type
    if type == .dir then
      found := found ++ (← jsonFilesBelow name (← e.path.readDir))
    else if type == .file && Files.isJsonName e.fileName then
      found := found ++ [name]
  return found

/-- The paths of the JSON files at or below a path, in the order of their components. -/
def listJsonFiles (path : String) : IO (List String) := do
  try
    let root ← IO.FS.realPath path
    let found ←
      if ← root.isDir then jsonFilesBelow [] (← root.readDir)
      else pure (if root.fileName.any Files.isJsonName then [[]] else [])
    return (OrdSet.ofList found).toList.map fun rest => "/".intercalate (path :: rest)
  catch _ => return []

/-- The files that a command reads. -/
def readInputs (c : Command) : IO Files := do
  let listing ← match c.modelDirectory? with
    | some directory => listJsonFiles directory
    | none => pure []
  let texts ← (c.inputs ++ listing).mapM fun path => do return (path, ← readText path)
  return ⟨fun path => (texts.lookup path).join, fun _ => listing⟩

/-- The present time in seconds of the epoch. -/
def secondsNow : IO String := do
  return toString (← Std.Time.Timestamp.now).toSecondsSinceUnixEpoch.val

/-- Writes the file that a command produced, if there is one. Whether that succeeds. -/
def writeFile : Option (String × String) → IO Bool
  | none => return true
  | some (path, text) => do
    try
      IO.FS.writeFile path text
      return true
    catch _ =>
      IO.eprintln ("Error: cannot write " ++ path)
      return false

/-- Runs a command line and returns its exit code. -/
def runProgram (arguments : List String) : IO UInt32 := do
  let files ← match Arguments.parse arguments with
    | .ok c => readInputs c
    | .error _ => pure FileTree.empty.view
  let styled := Style.isWanted (← IO.getEnv "CLICOLOR_FORCE") (← IO.getEnv "NO_COLOR")
    (← IO.getEnv "CLICOLOR") (← (← IO.getStdout).isTty)
  let outcome := Command.runLine ⟨files, styled, ← secondsNow⟩ arguments
  IO.print outcome.stdout
  if ← writeFile outcome.file then
    outcome.notes.forM fun note => IO.eprintln note
    return outcome.exit.toUInt32
  else return 1

end TaintFlow

def main (arguments : List String) : IO UInt32 := TaintFlow.runProgram arguments
