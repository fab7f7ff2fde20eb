import LineCalculator.Statement

/-!
# Sessions

A session answers lines one after another with the variables of the lines before. The line `exit`
leaves, a line without tokens is invalid input, and every other line is a statement. The policy says
whether a line that fails ends the session.
-/
namespace LineCalculator

/-- What a line that fails does to a session. -/
inductive ErrorPolicy where
  /-- The session ends and reports failure. -/
  | terminate
  /-- The next line is read. -/
  | carryOn
  deriving DecidableEq, Repr

/-- A session ends with a line that fails unless another policy is chosen. -/
instance : Inhabited ErrorPolicy := ⟨.terminate⟩

/-- A line that fails ends the session. -/
def ErrorPolicy.isFatal (policy : ErrorPolicy) : Bool := policy = .terminate

/-- The answer to a line. -/
inductive Reply where
  | exit
  | invalidInput
  | value (e : Evaluation)
  | error (fault : Fault)
  deriving Repr

namespace Reply

/-- How a reply is shown. -/
def text : Reply → String
  | exit => ""
  | invalidInput => "Invalid input."
  | value e => e.text
  | error fault => "Error: " ++ fault.message

/-- The session ends with this reply. -/
def endsSession (policy : ErrorPolicy) : Reply → Bool
  | exit => true
  | error _ => policy.isFatal
  | invalidInput => false
  | value _ => false

end Reply

/-- The reply to a line, the events of working it out and the variables after it. -/
structure Response where
  reply : Reply
  events : List Event
  vars : Variables

/-- The response to the outcome of a statement. -/
def Response.ofOutcome (vars : Variables) (o : Outcome Evaluation) : Response :=
  match o.result with
  | .ok e => ⟨.value e, o.events, e.store vars⟩
  | .error fault => ⟨.error fault, o.events ++ [.failure fault], vars⟩

@[simp] theorem vars_ofOutcome (vars : Variables) (o : Outcome Evaluation) :
    (Response.ofOutcome vars o).vars = o.store vars := by
  unfold Response.ofOutcome Outcome.store
  cases o.result <;> rfl

namespace Session

/-- The line that leaves a session. -/
def exitLine : String := "exit"

/-- Answers one line. -/
def respond (vars : Variables) (line : String) : Response :=
  if line = exitLine then ⟨.exit, [], vars⟩
  else
    let tokens := Token.scan line
    let counted := Event.tokenized tokens.length
    if tokens.length = 1 then ⟨.invalidInput, [counted], vars⟩
    else
      let response := Response.ofOutcome vars (evaluate vars tokens 0)
      { response with events := counted :: response.events }

/-- A line leaves the session, holds nothing, or is a statement with a value or a fault; and there is
nothing else in its response than what that comes to. -/
theorem respond_cases (vars : Variables) (line : String) :
    (line = exitLine ∧ respond vars line = ⟨.exit, [], vars⟩) ∨
    ((Token.scan line).length = 1 ∧ respond vars line = ⟨.invalidInput, [.tokenized 1], vars⟩) ∨
    (∃ e, (evaluateLine vars line).result = .ok e ∧
      respond vars line = ⟨.value e,
        .tokenized (Token.scan line).length :: (evaluateLine vars line).events, e.store vars⟩) ∨
    ∃ fault, (evaluateLine vars line).result = .error fault ∧
      respond vars line = ⟨.error fault,
        .tokenized (Token.scan line).length ::
          ((evaluateLine vars line).events ++ [.failure fault]), vars⟩ := by
  by_cases hexit : line = exitLine
  · exact .inl ⟨hexit, if_pos hexit⟩
  by_cases hlength : (Token.scan line).length = 1
  · exact .inr (.inl ⟨hlength, by simp only [respond, if_neg hexit, hlength, if_true]⟩)
  have hrespond : respond vars line =
      { Response.ofOutcome vars (evaluateLine vars line) with
        events := .tokenized (Token.scan line).length ::
          (Response.ofOutcome vars (evaluateLine vars line)).events } := by
    simp only [respond, if_neg hexit, if_neg hlength, evaluateLine]
  rw [hrespond, Response.ofOutcome]
  cases hresult : (evaluateLine vars line).result with
  | ok e => exact .inr (.inr (.inl ⟨e, rfl, rfl⟩))
  | error fault => exact .inr (.inr (.inr ⟨fault, rfl, rfl⟩))

/-- Answers lines in order, each with the variables that the one before it leaves. -/
def respondAll (vars : Variables) : List String → List Response
  | [] => []
  | line :: lines =>
    let response := respond vars line
    response :: respondAll response.vars lines

/-- Answers lines in order, up to and including the first reply that ends the session. -/
def converse (policy : ErrorPolicy) (vars : Variables) : List String → List Response
  | [] => []
  | line :: lines =>
    let response := respond vars line
    if response.reply.endsSession policy then [response]
    else response :: converse policy response.vars lines

@[simp] theorem respondAll_nil (vars : Variables) : respondAll vars [] = [] := rfl

@[simp] theorem respondAll_cons (vars : Variables) (line : String) (lines : List String) :
    respondAll vars (line :: lines) =
      respond vars line :: respondAll (respond vars line).vars lines := rfl

theorem converse_cons (policy : ErrorPolicy) (vars : Variables) (line : String)
    (lines : List String) :
    converse policy vars (line :: lines) =
      if (respond vars line).reply.endsSession policy then [respond vars line]
      else respond vars line :: converse policy (respond vars line).vars lines := rfl

end Session

end LineCalculator
