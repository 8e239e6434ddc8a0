/-
The command line program: reads what the request names and prints the report.
-/
import ScriptEngine.Engine.CommandLine

namespace ScriptEngine.CommandLine

/-- The bytes of a file, if it can be read. -/
def readFile (path : String) : IO (Option ByteArray) := do
  try
    return some (← IO.FS.readBinFile path)
  catch _ => return none

/-- All of a stream, behind what was read before. -/
partial def readAll (input : IO.FS.Stream) (before : ByteArray) : IO ByteArray := do
  let chunk ← input.read 65536
  if chunk.isEmpty then return before else readAll input (before ++ chunk)

def perform : Except Usage Request → IO (Option Report)
  | .error _ => return some usageReport
  | .ok .version => return some versionReport
  | .ok (.code options text) => return runCode Engine.budget options text
  | .ok (.standardInput options) => do
    return runInput Engine.budget options (← readAll (← IO.getStdin) .empty)
  | .ok (.scripts options paths) => do
    let files ← paths.mapM fun path => do return (path, ← readFile path)
    return runScripts Engine.budget options files

end ScriptEngine.CommandLine

open ScriptEngine.CommandLine in
def main (args : List String) : IO UInt32 := do
  match ← perform (parse args .initial) with
  | some report =>
    IO.print report.stdout
    IO.eprint (report.stderr.getD "error: the arguments are not understood\n")
    return UInt32.ofNat report.code
  | none => return 1
