import LineCalculator.Operation

/-!
# Events

The steps of working out a line, in the order in which they happen. The entries into the rules of
the grammar and the count of the tokens are fine-grained; all that is read, computed, stored or
refused is reported one severity higher. A line that the history of a session does not take is
reported as a warning.
-/
namespace LineCalculator

/-- The rules of the grammar of expressions. -/
inductive Rule where
  | expression
  | term
  | factor
  deriving DecidableEq, Repr

/-- The name of a rule. -/
def Rule.name : Rule → String
  | expression => "expression"
  | term => "term"
  | factor => "factor"

/-- What is reported of a session. All but the warning are steps of working out a line. -/
inductive Event where
  /-- A line was cut into so many tokens. -/
  | tokenized (count : Nat)
  /-- A statement starts. -/
  | evaluating (position : Nat)
  /-- A rule is entered, with so many groups open. -/
  | entering (rule : Rule) (position depth : Nat)
  | number (value : Float)
  | variableRead (name : String) (value : Float)
  | operation (op : Operator) (left right result : Float)
  | call (function : Builtin) (argument result : Float)
  | assignment (name : String) (value : Float)
  | printing (value : Float)
  /-- A statement stops before the end, at a token that is named. -/
  | trailing (position : Nat) (token : String)
  | failure (fault : Fault)
  /-- The history does not take a line, for a reason that it gives. -/
  | unkept (reason : String)
  deriving Repr

namespace Event

/-- The severities of events. -/
inductive Severity where
  | trace
  | debug
  | warn
  deriving DecidableEq, Repr

/-- The name of a severity. -/
def Severity.name : Severity → String
  | trace => "TRACE"
  | debug => "DEBUG"
  | warn => "WARN"

/-- The severity of an event. -/
def severity : Event → Severity
  | tokenized _ => .trace
  | entering _ _ _ => .trace
  | unkept _ => .warn
  | _ => .debug

/-- What an event says. -/
def message : Event → String
  | tokenized _ => "tokenized line"
  | evaluating _ => "evaluating tokens"
  | entering rule _ _ => "parsing " ++ rule.name
  | number value => "number: " ++ Number.display value
  | variableRead name value => "variable: " ++ name ++ " = " ++ Number.display value
  | operation op left right result =>
    "operation: " ++ Number.display left ++ " " ++ op.symbol ++ " " ++ Number.display right ++
      " = " ++ Number.display result
  | call function argument result =>
    "function: " ++ function.name ++ "(" ++ Number.display argument ++ ") = " ++
      Number.display result
  | assignment name value => "assignment: " ++ name ++ " = " ++ Number.display value
  | printing value => "print: " ++ Number.display value
  | trailing _ _ => "ignoring trailing tokens"
  | failure fault => "line failed: " ++ fault.message
  | unkept reason => "could not record history entry: " ++ reason

/-- The named values that an event reports behind its message. -/
def fields : Event → List (String × String)
  | tokenized count => [("count", count.repr)]
  | evaluating position => [("position", position.repr)]
  | entering _ position _ => [("position", position.repr)]
  | trailing position token => [("position", position.repr), ("token", token)]
  | failure fault => [("position", fault.position.repr)]
  | _ => []

/-- An event as it is recorded: the severity, the message and the fields. -/
def text (e : Event) : String :=
  e.severity.name ++ " " ++ e.message ++
    String.join (e.fields.map fun field => " " ++ field.1 ++ "=" ++ field.2)

end Event

end LineCalculator
