import BrilFlow.Cli.Run

/-! The `dflow` command: reads the command line and the input, runs the command, prints what it
prints and exits with its status. -/
namespace BrilFlow.Cli

/-- Reads a stream to its end. -/
partial def readStream (stream : IO.FS.Stream) (acc : String) : IO String := do
  let line ← stream.getLine
  if line.isEmpty then return acc else readStream stream (acc ++ line)

def readInput (path : String) : IO (Except ReadFailure String) := do
  try
    return .ok (← IO.FS.readFile path)
  catch e =>
    match e with
    | .inappropriateType _ 20 _ => return .error .notDirectory
    | .invalidArgument _ 36 _ => return .error .nameTooLong
    | .inappropriateType .. => return .error .isDirectory
    | _ => return .error .notFound

/-- Runs a command line against the real input. -/
def runOnSystem (args : List String) : IO Outcome := do
  match readCommandLine args with
  | .error stop => return stop.outcome
  | .ok parsed =>
    let inv := Invocation.ofParsed parsed
    if inv.refusal?.isSome then return inv.execute (.ok "")
    let text : Except ReadFailure String ← match inv.input with
      | none => do
        let stdin ← readStream (← IO.getStdin) ""
        pure (.ok stdin)
      | some path => readInput path
    return inv.execute text

end BrilFlow.Cli

def main (args : List String) : IO UInt32 := do
  let outcome ← BrilFlow.Cli.runOnSystem args
  IO.print outcome.stdout
  IO.eprint outcome.stderr
  return outcome.status.toUInt32
