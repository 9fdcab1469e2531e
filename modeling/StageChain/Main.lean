import StageChain.Command

namespace StageChain.Command

/-- The bytes of a file, or why there are none. A directory can be opened, and fails only when it
is read, where the error has no path. -/
def readFile (path : String) : IO (Except FileError ByteArray) := do
  try
    return .ok (← IO.FS.readBinFile path)
  catch
    | .inappropriateType (some _) .. => return .error .notDirectory
    | .inappropriateType none .. => return .error .directory
    | .invalidArgument .. => return .error .nameTooLong
    | .permissionDenied .. => return .error .denied
    | _ => return .error .missing

end StageChain.Command

open StageChain

def main (args : List String) : IO UInt32 := do
  match Command.ofArgs args with
  | none =>
      IO.eprintln "usage: chainfold compile <source> | execute <path> | list-formats"
      return 2
  | some command =>
      let files ← command.paths.mapM fun path => do return (path, ← Command.readFile path)
      let report := command.run fun path => (files.lookup path).getD (.error .missing)
      IO.print report.stdout
      IO.eprint report.stderr
      return report.exit.toUInt32
