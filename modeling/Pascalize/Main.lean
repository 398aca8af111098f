import Pascalize.Command.Run

/-!
# The program

Runs the command line on the real file system and passes the report on.
-/

namespace Pascalize.Command

/-- A failure of the file system as the command line names it. Codes come with either sign. -/
def fileFault : IO.Error → FileFault
  | .noFileOrDirectory .. => .notFound
  | .inappropriateType _ code _ => if code = 20 ∨ code = -20 then .notDirectory else .isDirectory
  | .invalidArgument _ code _ =>
    if code = 36 ∨ code = -36 then .nameTooLong else .other "Invalid argument (os error 22)"
  | .permissionDenied .. => .other "Permission denied (os error 13)"
  | e => .other (toString e)

instance : Files IO where
  read path := do
    try
      return .ok (← IO.FS.readBinFile path)
    catch e => return .error (fileFault e)
  write path contents := do
    try
      IO.FS.writeBinFile path contents
      return .ok ()
    catch e => return .error (fileFault e)

end Pascalize.Command

open Pascalize.Command in
/-- Runs the command line, prints what it shows, and ends with its exit code. -/
def main (arguments : List String) : IO UInt32 := do
  let report ← run arguments
  IO.print report.stdout
  IO.eprint report.stderr
  return report.exit.toUInt32
