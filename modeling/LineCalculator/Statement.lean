import LineCalculator.Expression
import LineCalculator.Token

/-!
# Statements

    statement := name "=" expression | "print" expression | expression

The form shows in the first two tokens. A statement reads the variables as they are when it starts;
an assignment changes them only after its right side has a value. Tokens left over behind the
expression are reported in the events and otherwise ignored.
-/
namespace LineCalculator

/-- The forms of statements. -/
inductive StatementForm where
  | assignment (name : String)
  | print
  | expression
  deriving DecidableEq, Repr

/-- What a statement comes to: its form and its value. -/
structure Evaluation where
  form : StatementForm
  value : Float
  deriving Repr

namespace Evaluation

/-- How an evaluation is shown; only what is printed is called so. -/
def text (e : Evaluation) : String :=
  match e.form with
  | .print => "Print: " ++ Number.display e.value
  | .assignment _ => "Result: " ++ Number.display e.value
  | .expression => "Result: " ++ Number.display e.value

theorem text_eq (e : Evaluation) :
    e.text = (if e.form = .print then "Print: " else "Result: ") ++ Number.display e.value := by
  obtain ⟨form, x⟩ := e
  cases form <;> rfl

/-- The variables after a statement: an assignment gives its name the value. -/
def store (e : Evaluation) (vars : Variables) : Variables :=
  match e.form with
  | .assignment name => vars.insert name e.value
  | .print => vars
  | .expression => vars

end Evaluation

namespace Statement

/-- The right side of an assignment. -/
def assignment (vars : Variables) (name : String) (c : Cursor) : Outcome Evaluation :=
  (expression vars c).andThen fun value next =>
    (Outcome.value ⟨.assignment name, value⟩ next).after (.assignment name value)

/-- What the keyword of a print statement is followed by. -/
def print (vars : Variables) (c : Cursor) : Outcome Evaluation :=
  (expression vars c).andThen fun value next =>
    (Outcome.value ⟨.print, value⟩ next).after (.printing value)

/-- A statement that is an expression. -/
def bare (vars : Variables) (c : Cursor) : Outcome Evaluation :=
  (expression vars c).andThen fun value next => .value ⟨.expression, value⟩ next

/-- A name with an equals sign behind it. -/
def isAssignment (c : Cursor) : Bool :=
  c.peek.kind = .name && c.peekNext.kind = .equals

/-- A statement up to the end of its expression. -/
def body (vars : Variables) (c : Cursor) : Outcome Evaluation :=
  if isAssignment c then assignment vars c.peek.text c.advance.advance
  else match c.eat? .print with
    | some printed => print vars printed
    | none => bare vars c

/-- The report of the tokens that a statement leaves over. -/
def leftOver (e : Evaluation) (c : Cursor) : Outcome Evaluation :=
  if c.atEnd then .value e c
  else (Outcome.value e c).after (.trailing c.position c.peek.display)

end Statement

/-- Reads and evaluates one statement. -/
def statement (vars : Variables) (c : Cursor) : Outcome Evaluation :=
  ((Statement.body vars c).andThen Statement.leftOver).after (.evaluating c.position)

/-- The variables after a statement; a statement that fails leaves them alone. -/
def Outcome.store (o : Outcome Evaluation) (vars : Variables) : Variables :=
  match o.result with
  | .ok e => e.store vars
  | .error _ => vars

/-- Evaluates the statement at an index of a token list. -/
def evaluate (vars : Variables) (tokens : List Token) (position : Nat) : Outcome Evaluation :=
  statement vars (Cursor.atIndex tokens position)

/-- Evaluates a line. -/
def evaluateLine (vars : Variables) (line : String) : Outcome Evaluation :=
  evaluate vars (Token.scan line) 0

@[simp] theorem Outcome.store_ok {o : Outcome Evaluation} {e : Evaluation}
    (h : o.result = .ok e) (vars : Variables) : o.store vars = e.store vars := by
  simp [Outcome.store, h]

@[simp] theorem Outcome.store_error {o : Outcome Evaluation} {fault : Fault}
    (h : o.result = .error fault) (vars : Variables) : o.store vars = vars := by
  simp [Outcome.store, h]

end LineCalculator
