import LineCalculator.Program

/-!
# The program

Reads its lines from standard input and answers each as soon as it is read. The prompt is shown only
where someone types.
-/
namespace LineCalculator

/-- The text shown when help is asked for or the arguments are wrong. -/
def usage : String :=
  "Usage: rootcalc [--on-error terminate|continue] [-t|--trace] [--prompt TEXT] [-V|--version]"

/-- Answers the lines of a stream one by one; the result is the exit code. -/
partial def interact (settings : Settings) (vars : Variables)
    (input output diagnostics : IO.FS.Stream) : IO UInt32 := do
  if ← input.isTty then
    output.putStr settings.prompt
    output.flush
  match inputLines (← input.getLine) with
  | [] => return 0
  | line :: _ =>
    let response := Session.respond vars line
    output.putStr response.reply.output
    output.flush
    diagnostics.putStr (Surroundings.plain.log settings response.events)
    diagnostics.putStr response.reply.complaint
    diagnostics.flush
    match response.reply.exitCode? settings.policy with
    | some code => return .ofNat code
    | none => interact settings response.vars input output diagnostics

end LineCalculator

open LineCalculator in
/-- Answers the arguments. -/
def main (arguments : List String) : IO UInt32 := do
  match CommandLine.request? arguments with
  | none =>
    IO.eprintln usage
    return 2
  | some .help =>
    IO.println usage
    return 0
  | some .version =>
    IO.print Report.version.output
    return 0
  | some (.session settings) =>
    interact settings ∅ (← IO.getStdin) (← IO.getStdout) (← IO.getStderr)
