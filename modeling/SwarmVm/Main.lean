import SwarmVm.CommandLine

/-!
# The program

Reads the image named on the command line, carries the invocation out and writes what it answers.
-/

namespace SwarmVm

/-- The reason with a number, which some system calls give with its sign changed. -/
def failureOf (number : UInt32) (text : String) : CommandLine.FileError :=
  .ofNumber number.toInt32.toInt.natAbs text

/-- The reason for which a file cannot be read. -/
def readFailure (e : IO.Error) : CommandLine.FileError :=
  match e with
  | .noFileOrDirectory _ number text | .interrupted _ number text
  | .permissionDenied _ number text | .inappropriateType _ number text
  | .invalidArgument _ number text | .resourceExhausted _ number text
  | .noSuchThing _ number text | .alreadyExists _ number text => failureOf number text
  | .otherError number text | .resourceBusy number text | .resourceVanished number text
  | .unsupportedOperation number text | .hardwareFault number text
  | .unsatisfiedConstraints number text | .illegalOperation number text
  | .protocolError number text | .timeExpired number text => failureOf number text
  | .unexpectedEof | .userError _ => failureOf 5 "Input/output error"

/-- The bytes of a file, or why it cannot be read. -/
def readImage (path : String) : IO (Except CommandLine.FileError (List UInt8)) := do
  try
    let bytes ← IO.FS.readBinFile path
    return .ok bytes.data.toList
  catch e => return .error (readFailure e)

/-- Write the answer of a run. -/
def writeResult (r : CommandLine.Result) : IO UInt32 := do
  (← IO.getStdout).putStr r.output
  (← IO.getStderr).putStr r.errors
  return r.code

end SwarmVm

open SwarmVm in
/-- The program. -/
def main (args : List String) : IO UInt32 := do
  match CommandLine.parse args with
  | .error usage => writeResult (CommandLine.refuse usage)
  | .ok invocation =>
    let file ← readImage (invocation.image.getD "")
    writeResult (CommandLine.carryOut invocation file)
