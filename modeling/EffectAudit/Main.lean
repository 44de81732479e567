import EffectAudit.Command.Run
import EffectAudit.Elapsed
/-! The program: reads files, runs a command on them, prints and writes the answer. -/
namespace EffectAudit

def readFiles (paths : List String) : IO (List (String × String)) := do
  let mut texts := []
  for path in paths do
    try texts := (path, ← IO.FS.readFile path) :: texts catch _ => pure ()
  return texts

def Outcome.print (o : Outcome) : IO UInt32 := do
  (← IO.getStdout).putStr o.stdout
  (← IO.getStderr).putStr o.stderr
  return o.code.toUInt32

def timed {α : Type} (compute : Unit → α) : IO (α × String) := do
  let start ← IO.monoNanosNow
  let result ← IO.lazyPure compute
  let stop ← IO.monoNanosNow
  return (result, Elapsed.text ((stop - start).toFloat / 1000000))

def Job.timedResults (j : Job) : IO (Except Error (List (UnitResult × String))) := do
  let mut results := []
  for program in j.programs do
    let (result, elapsed) ← timed fun _ => analyze j.config j.registry program
    match result with
    | .error e => return .error e
    | .ok result => results := (result, elapsed) :: results
  return .ok results.reverse

def Command.execute (c : Command) : IO Outcome := do
  let texts ← readFiles c.inputs
  match c.load (List.lookup · texts) with
  | .error e => return .ofError e
  | .ok job =>
    match ← job.timedResults with
    | .error e => return .ofError e
    | .ok results =>
      match c.conclude results with
      | .error outcome => return outcome
      | .ok delivery =>
        try
          IO.FS.writeFile delivery.path delivery.text
          return delivery.outcome
        catch _ => return .ofError .unreadableFile

end EffectAudit

def main (args : List String) : IO UInt32 := do
  match EffectAudit.Command.ofArgs args with
  | .error e => e.outcome.print
  | .ok command => (← command.execute).print
