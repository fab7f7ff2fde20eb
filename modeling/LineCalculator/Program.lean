import LineCalculator.CommandLine

/-!
# Runs of the program

A run reads lines and answers each with the variables of the lines before. It ends with the line that
leaves, with a fault under the policy that ends a session there, or with the reading. Values and
invalid input go to the output, faults to the diagnostics, and the events of a line that the log keeps
stand before its fault. How lines are read and how an event is logged is not the program's own: a run
is given both.
-/
namespace LineCalculator

/-! ## What a run is given -/

/-- A line as the reader returns it. -/
structure Entry where
  line : String
  /-- What the reader writes on the output for it, such as the prompt. -/
  shown : String := ""
  /-- Why the history does not take the line, if it does not. -/
  refusal : Option String := none

/-- The warning about a line that the history does not take. -/
def Entry.warnings (entry : Entry) : List Event := entry.refusal.toList.map .unkept

/-- How a reading ends. -/
inductive Ending where
  /-- The input is over or interrupted. -/
  | finished
  /-- The reader reports an error. -/
  | failed (reason : String)
  /-- The reader takes the process down, with an exit code and a last text on the diagnostics. -/
  | crashed (code : Nat) (last : String)

/-- All that the reader returns. -/
structure Reading where
  entries : List Entry
  /-- What it writes on the output behind the last line, such as a prompt without an answer. -/
  shown : String
  ending : Ending

/-- The reading of lines from a pipe: nothing is shown, and the history takes every line. -/
def Reading.piped (lines : List String) : Reading :=
  ⟨lines.map fun line => { line }, "", .finished⟩

/-- What a run takes from others: the reader of its lines and the log of its events. -/
structure Surroundings where
  /-- Why the reader cannot be opened, if it cannot. -/
  unopened : Option String
  /-- What is read with a prompt from an input. -/
  read : String → String → Reading
  /-- The filter that the environment asks for, if it asks for one. -/
  filter : Option (Event → Bool)
  /-- What the log writes for an event that it keeps, the time left out. -/
  logged : Event → String

/-- A line without the carriage return at its end. -/
def dropReturn (line : List Char) : List Char :=
  if line.getLast? = some '\r' then line.dropLast else line

/-- The lines of a text: what stands before each line feed, without a carriage return at its end, and
what stands behind the last one if that is anything. -/
def inputLines (text : String) : List String :=
  let pieces := text.toList.splitOn '\n'
  (pieces.dropLast.map dropReturn ++ (pieces.getLast?.filter (· ≠ [])).toList).map String.ofList

/-- A pipe that is read as it stands, and a log of the events as they are recorded. -/
def Surroundings.plain : Surroundings where
  unopened := none
  read _ input := .piped (inputLines input)
  filter := none
  logged e := e.text ++ "\n"

/-! ## What a run leaves -/

/-- The exit code of a run and the texts of its two streams. -/
structure Report where
  code : Nat
  output : String
  diagnostics : String
  deriving DecidableEq, Repr

namespace Report

/-- A report with more before it on both streams. -/
def behind (r : Report) (output diagnostics : String) : Report where
  code := r.code
  output := output ++ r.output
  diagnostics := diagnostics ++ r.diagnostics

/-- The report of a version question. -/
def version : Report := ⟨0, "rootcalc 0.1.0\n", ""⟩

end Report

namespace Reply

/-- What a reply puts on the output: a value, or that the input is invalid. -/
def output : Reply → String
  | exit => ""
  | error _ => ""
  | reply => reply.text ++ "\n"

/-- What a reply puts on the diagnostics: a fault. -/
def complaint : Reply → String
  | error fault => (error fault).text ++ "\n"
  | _ => ""

/-- The exit code of a run that ends with this reply; after other replies the next line is read. -/
def exitCode? (policy : ErrorPolicy) : Reply → Option Nat
  | exit => some 0
  | reply => if reply.endsSession policy then some 1 else none

end Reply

/-- What a run leaves when the reading ends. -/
def Reading.close (reading : Reading) : Report :=
  match reading.ending with
  | .finished => ⟨0, reading.shown, ""⟩
  | .failed reason => ⟨1, reading.shown, "Failed to read input: " ++ reason ++ "\n"⟩
  | .crashed code last => ⟨code, reading.shown, last⟩

namespace Surroundings

/-- The log keeps an event. Unless the environment says otherwise, it keeps all of them with the trace
on, and only warnings without it. -/
def keeps (s : Surroundings) (settings : Settings) (e : Event) : Bool :=
  match s.filter with
  | some filter => filter e
  | none => settings.trace || e.severity = .warn

/-- What the log writes for events. -/
def log (s : Surroundings) (settings : Settings) (events : List Event) : String :=
  String.join ((events.filter (s.keeps settings)).map s.logged)

/-- Answers the lines of a reading one after another; `last` is what follows when there are no more. -/
def serve (s : Surroundings) (settings : Settings) (last : Report) (vars : Variables) :
    List Entry → Report
  | [] => last
  | entry :: entries =>
    let response := Session.respond vars entry.line
    let output := entry.shown ++ response.reply.output
    let diagnostics :=
      s.log settings (entry.warnings ++ response.events) ++ response.reply.complaint
    match response.reply.exitCode? settings.policy with
    | some code => ⟨code, output, diagnostics⟩
    | none => (s.serve settings last response.vars entries).behind output diagnostics

/-- The report of a session over an input. -/
def run (s : Surroundings) (settings : Settings) (input : String) : Report :=
  match s.unopened with
  | some reason => ⟨1, "", "Failed to open the terminal for reading: " ++ reason ++ "\n"⟩
  | none =>
    let reading := s.read settings.prompt input
    s.serve settings reading.close ∅ reading.entries

end Surroundings

end LineCalculator
