import TopDown.CommandLine.Answer

/-!
# The program

Files and the standard input of the real world, and the two outputs.
-/

namespace TopDown.CommandLine

/-- The error of the file system that an exception stands for. -/
def fileError : IO.Error → FileError
  | .noFileOrDirectory .. => .missing
  | .inappropriateType .. => .directory
  | e => .other e.toString

/-- The files of the file system and the standard input. -/
def realWorld : World IO where
  file path := do
    try return .ok (← IO.FS.readBinFile path)
    catch e => return .error (fileError e)
  input := do
    try return .ok (← (← IO.getStdin).readBinToEnd)
    catch e => return .error (fileError e)

end TopDown.CommandLine

/-- Prints what is asked for and ends with the exit code. -/
def main (arguments : List String) : IO UInt32 := do
  let answer ← TopDown.CommandLine.answer TopDown.CommandLine.realWorld arguments
  IO.print answer.stdout
  IO.eprint answer.stderr
  return answer.code.toUInt32
