import DequeMachine.Command.Run

namespace DequeMachine

/-- The text of a failed read, with the number that the system gives it. -/
def readFailure (e : IO.Error) : Text :=
  match e with
  | .inappropriateType _ code text | .hardwareFault code text | .otherError code text =>
    (text ++ " (os error " ++ toString code ++ ")").toList
  | e => (toString e).toList

def readAll (h : IO.FS.Handle) (read : ByteArray) : IO Source := do
  let mut read := read
  let mut failure := none
  repeat
    match ← (h.read 65536).toBaseIO with
    | .ok piece =>
      if piece.isEmpty then break
      read := read ++ piece
    | .error e =>
      failure := some (readFailure e)
      break
  let bytes := read.toList
  return { bytes, broken := failure.map fun text => ⟨bytes.length, text⟩ }

def openFile (path : Text) : IO (Option Source) := do
  match ← (IO.FS.Handle.mk (String.ofList path) .read).toBaseIO with
  | .ok h => some <$> readAll h .empty
  | .error _ => return none

/-- The program with its libraries at hand. -/
def program (l : Libraries) (args : List String) : IO UInt32 := do
  let args := args.map String.toList
  let program ← match Arguments.parse args with
    | .ok a => openFile a.file
    | .error _ => pure none
  let environment ← IO.getEnv "RUST_LOG"
  let outcome := Command.run l (fun _ => program) (environment.map String.toList) args
  let stdout ← IO.getStdout
  stdout.write (ByteArray.mk outcome.stdout.toArray)
  stdout.flush
  IO.eprint (String.ofList outcome.stderr)
  return outcome.exit

end DequeMachine
