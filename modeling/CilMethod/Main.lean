import CilMethod.CommandLine

/-!
# The program

Reads the input file, lets `CommandLine.complete` do the work, and prints what it leaves behind.
-/

namespace CilMethod

/-- The system's number for a refusal, which some calls hand over negated. -/
def systemNumber (code : UInt32) : Nat :=
  min code.toNat (-code).toNat

/-- The reason why the system could not read a file. -/
def FileFault.ofError : IO.Error → FileFault
  | .noFileOrDirectory .. => .notFound
  | .permissionDenied .. => .permissionDenied
  | .inappropriateType _ code _ =>
    if systemNumber code = 20 then .notADirectory else .isADirectory
  | .invalidArgument _ code details =>
    if systemNumber code = 36 then .nameTooLong else .other (systemNumber code) details
  | e => .other 5 (toString e)

/-- What reading a file gives. -/
def contentsOf (path : String) : IO (Except FileFault ByteArray) := do
  try
    return .ok (← IO.FS.readBinFile path)
  catch e =>
    return .error (.ofError e)

end CilMethod

open CilMethod CommandLine in
def main (arguments : List String) : IO UInt32 := do
  let r := request arguments
  let contents ← match r with
    | .run settings => contentsOf settings.input
    | _ => pure (.error .notFound)
  let completed := complete r fun _ => contents
  IO.print completed.stdout
  IO.eprint completed.stderr
  return completed.code.toUInt32
