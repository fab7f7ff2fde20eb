import LineCalculator.Number

/-!
# Faults

A line fails by its form or by its values. Every fault carries the index of the token it was found
at, and has one message.
-/
namespace LineCalculator

/-- Faults in the form of a line. -/
inductive FormFault where
  /-- A token that no factor starts with, as it is named to the user. -/
  | unexpectedToken (found : String) (position : Nat)
  /-- A group or an argument without its closing parenthesis. -/
  | unclosedParenthesis (position : Nat)
  /-- A function name without an opening parenthesis after it. -/
  | expectedOpenParen (function : String) (position : Nat)
  /-- A number token whose text is not the text of a number. -/
  | malformedNumber (literal : String) (position : Nat)
  /-- A group or a call inside as many others as may be open. -/
  | nestedTooDeep (position : Nat)
  deriving DecidableEq, Repr

/-- Faults in the values of a well-formed line. -/
inductive ValueFault where
  /-- A variable that was never assigned. -/
  | undefinedVariable (name : String) (position : Nat)
  /-- The square root of a number below zero. -/
  | negativeRoot (argument : Float) (position : Nat)
  deriving Repr

/-- Why a line fails. -/
inductive Fault where
  | form (fault : FormFault)
  | value (fault : ValueFault)
  deriving Repr

namespace FormFault

/-- The index of the token at fault. -/
def position : FormFault → Nat
  | unexpectedToken _ position => position
  | unclosedParenthesis position => position
  | expectedOpenParen _ position => position
  | malformedNumber _ position => position
  | nestedTooDeep position => position

/-- The message of a fault in form. -/
def message : FormFault → String
  | unexpectedToken found position =>
    "Unexpected token " ++ found ++ " at index " ++ position.repr ++ "."
  | unclosedParenthesis position =>
    "Unclosed parenthesis: expected ')' at index " ++ position.repr ++ "."
  | expectedOpenParen function position =>
    "Expected '(' after '" ++ function ++ "' at index " ++ position.repr ++ "."
  | malformedNumber literal position =>
    "Malformed number '" ++ literal ++ "' at index " ++ position.repr ++ "."
  | nestedTooDeep position =>
    "Expression nested too deeply at index " ++ position.repr ++ "."

end FormFault

namespace ValueFault

/-- The index of the token at fault. -/
def position : ValueFault → Nat
  | undefinedVariable _ position => position
  | negativeRoot _ position => position

/-- The message of a fault in value. -/
def message : ValueFault → String
  | undefinedVariable name _ => "Undefined variable '" ++ name ++ "'."
  | negativeRoot argument _ =>
    "Square root of negative number " ++ Number.display argument ++ "."

end ValueFault

namespace Fault

/-- The index of the token at fault. -/
def position : Fault → Nat
  | form fault => fault.position
  | value fault => fault.position

/-- The message of a fault. -/
def message : Fault → String
  | form fault => fault.message
  | value fault => fault.message

end Fault

end LineCalculator
