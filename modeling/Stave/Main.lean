import Stave.CommandLine

/-! The program: fetches the files that a run may ask for, and prints what the run leaves behind. -/

open Stave CommandLine

/-- The fault that a failed access to a file amounts to. -/
def faultOf : IO.Error → FileFault
  | .noFileOrDirectory .. => .missing
  | .permissionDenied .. => .denied
  | .inappropriateType _ code _ => if code = 21 then .isFolder else .notFolder
  | .invalidArgument .. => .nameTooLong
  | e => .other (toString e)

def fetch (path : String) : IO (Except FileFault String) := do
  try
    match String.fromUTF8? (← IO.FS.readBinFile path) with
    | some text => return .ok text
    | none => return .error .notText
  catch e => return .error (faultOf e)

/-- Longest wait that the clock of the machine takes at once. -/
def maxWait : Nat := UInt32.size - 1

def main (args : List String) : IO UInt32 := do
  let contents ← (filesNeeded args).mapM fun path => return (path, ← fetch path)
  let outcome := run (fun path => (contents.lookup path).getD (.error .missing)) args
  let stdout ← IO.getStdout
  for piece in outcome.output do
    if piece.pause > 0 then IO.sleep (min piece.pause maxWait).toUInt32
    stdout.putStr piece.text
    stdout.flush
  IO.eprint outcome.errors
  return outcome.code
