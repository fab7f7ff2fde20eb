import LineCalculator.Session

/-!
# The command line

A user chooses the settings of a session by the arguments. They are taken from left to right. The
first of them that is wrong makes the command line wrong, and a question for the version or for help
is answered at once, whatever comes after it. An option is given at most once, and nothing but
options is taken. The two policies have names, matched exactly on the command line and with the case
of ASCII letters ignored elsewhere.
-/
namespace LineCalculator

/-! ## Settings -/

namespace ErrorPolicy

/-- The name that a policy is chosen by. -/
def name : ErrorPolicy → String
  | terminate => "terminate"
  | carryOn => "continue"

/-- The policy of a name. -/
def ofName? (text : String) : Option ErrorPolicy :=
  if text = "terminate" then some terminate
  else if text = "continue" then some carryOn
  else none

/-- The policy of a name in any ASCII case. -/
def ofNameAnyCase? (text : String) : Option ErrorPolicy := ofName? text.toLower

@[simp] theorem ofName?_name (policy : ErrorPolicy) : ofName? policy.name = some policy := by
  cases policy <;> rfl

end ErrorPolicy

/-- The settings of a session. -/
structure Settings where
  /-- What a line that fails does. -/
  policy : ErrorPolicy := default
  /-- The events of every line are shown. -/
  trace : Bool := false
  /-- The text before each line that is typed. -/
  prompt : String := "Enter an expression or 'exit' to finish: "
  deriving DecidableEq, Repr

namespace CommandLine

/-! ## Arguments -/

/-- The options. -/
inductive Key where
  | onError
  | trace
  | prompt
  | version
  | help
  deriving DecidableEq, Repr

/-- The option of a long name, which is never abbreviated. -/
def Key.ofName? (name : List Char) : Option Key :=
  if name = "on-error".toList then some .onError
  else if name = "trace".toList then some .trace
  else if name = "prompt".toList then some .prompt
  else if name = "version".toList then some .version
  else if name = "help".toList then some .help
  else none

/-- The option of a letter. -/
def Key.ofLetter? (letter : Char) : Option Key :=
  if letter = 't' then some .trace
  else if letter = 'V' then some .version
  else if letter = 'h' then some .help
  else none

/-- One piece of a command line. -/
inductive Piece where
  /-- Two dashes alone: no options after this. -/
  | separator
  /-- An option by its name or letter. -/
  | option (key : Key)
  /-- An option and its value in one argument. -/
  | assigned (key : Key) (value : String)
  /-- A text that starts no option: a single dash, or one with no dash in front. -/
  | plain (text : String)
  /-- Dashes in front of what is no option. -/
  | unknown
  deriving DecidableEq, Repr

/-- The pieces of an argument; several letters behind one dash are so many options. -/
def Piece.ofArgument (text : String) : List Piece :=
  match text.toList with
  | ['-', '-'] => [.separator]
  | '-' :: '-' :: rest =>
    match Key.ofName? (rest.takeWhile (· ≠ '=')), rest.dropWhile (· ≠ '=') with
    | some key, [] => [.option key]
    | some key, _ :: value => [.assigned key (String.ofList value)]
    | none, _ => [.unknown]
  | '-' :: letter :: letters =>
    (letter :: letters).map fun l => ((Key.ofLetter? l).map Piece.option).getD .unknown
  | _ => [.plain text]

/-- What a command line asks for. -/
inductive Request where
  | version
  | help
  | session (settings : Settings)
  deriving DecidableEq, Repr

/-- The options that have been given. -/
structure Given where
  policy : Option ErrorPolicy := none
  trace : Bool := false
  prompt : Option String := none
  deriving DecidableEq, Repr

namespace Given

/-- The settings of the options given; the others keep their defaults. -/
def settings (given : Given) : Settings :=
  let usual : Settings := {}
  { policy := given.policy.getD usual.policy
    trace := given.trace
    prompt := given.prompt.getD usual.prompt }

/-- One more option, the policy of a name. -/
def withPolicy (given : Given) (name : String) : Option Given :=
  if given.policy.isSome then none
  else (ErrorPolicy.ofName? name).map fun policy => { given with policy := some policy }

/-- One more option, the trace. -/
def withTrace (given : Given) : Option Given :=
  if given.trace then none else some { given with trace := true }

/-- One more option, a prompt. -/
def withPrompt (given : Given) (text : String) : Option Given :=
  if given.prompt.isSome then none else some { given with prompt := some text }

end Given

/-- What the pieces ask for after the options given. An option with a value takes a plain text
as its value, and nothing else. -/
def requestOf : Given → List Piece → Option Request
  | given, [] => some (.session given.settings)
  | given, [.separator] => some (.session given.settings)
  | _, .option .version :: _ => some .version
  | _, .option .help :: _ => some .help
  | given, .option .trace :: rest => given.withTrace.bind fun given => requestOf given rest
  | given, .option .onError :: .plain name :: rest =>
    (given.withPolicy name).bind fun given => requestOf given rest
  | given, .assigned .onError name :: rest =>
    (given.withPolicy name).bind fun given => requestOf given rest
  | given, .option .prompt :: .plain text :: rest =>
    (given.withPrompt text).bind fun given => requestOf given rest
  | given, .assigned .prompt text :: rest =>
    (given.withPrompt text).bind fun given => requestOf given rest
  | _, _ => none

/-- What the arguments ask for; nothing if they are wrong. -/
def request? (arguments : List String) : Option Request :=
  requestOf {} (arguments.flatMap Piece.ofArgument)

end CommandLine

end LineCalculator
