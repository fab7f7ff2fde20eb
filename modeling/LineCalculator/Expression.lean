import LineCalculator.Outcome
import LineCalculator.Number
import LineCalculator.Variables

/-!
# Expressions

An expression is worked out in one pass from left to right, with its value and not with a tree:

    expression := term (("+" | "-") term)*
    term       := factor (("*" | "/" | "^") factor)*
    factor     := number | name | "(" expression ")" | function "(" expression ")"

A rule that succeeds leaves the cursor on the first token it did not use, with as many groups open
as it found. Two bounds end the recursion. The operands of a chain each take a token, so there are
no more of them than tokens ahead; and inside a group the rules start again with one group fewer
left to open.
-/
namespace LineCalculator.Expression

/-- A number token, taken before its text is looked at. -/
def number (c : Cursor) : Outcome Float :=
  match Number.read? c.peek.text with
  | some value => (Outcome.value value c.advance).after (.number value)
  | none => .formFault (.malformedNumber c.peek.text c.position) c.advance

/-- The variable that a name token reads. -/
def variableRead (vars : Variables) (c : Cursor) : Outcome Float :=
  match Variables.lookup vars c.peek.text c.position with
  | .ok value => (Outcome.value value c.advance).after (.variableRead c.peek.text value)
  | .error fault => .valueFault fault c

/-- The closing parenthesis of a group with the given value. -/
def closeGroup (value : Float) (c : Cursor) : Outcome Float :=
  match c.eat? .closeParen with
  | some closed => .value value closed.leaveGroup
  | none => .formFault (.unclosedParenthesis c.position) c

/-- A group: an expression between parentheses. -/
def group (inner : Cursor → Outcome Float) (c : Cursor) : Outcome Float :=
  match c.enterGroup with
  | .ok opened => (inner opened.advance).andThen closeGroup
  | .error fault => .formFault fault c

/-- The value of a function at an argument that has been read; `position` is the call's. -/
def applyAt (f : Builtin) (position : Nat) (argument : Float) (c : Cursor) : Outcome Float :=
  match f.apply argument position with
  | .ok value => (Outcome.value value c).after (.call f argument value)
  | .error fault => .valueFault fault c

/-- A call: a function's name and a group. The group counts as open from the name on, and the name
is taken before it is looked up. -/
def call (inner : Cursor → Outcome Float) (c : Cursor) : Outcome Float :=
  match c.enterGroup with
  | .error fault => .formFault fault c
  | .ok opened =>
    let named := opened.advance
    match Builtin.ofName? c.peek.text with
    | none => .formFault (.unexpectedToken c.peek.display c.position) named
    | some f =>
      match named.eat? .openParen with
      | none => .formFault (.expectedOpenParen f.name named.position) named
      | some argument => ((inner argument).andThen closeGroup).andThen (applyAt f c.position)

/-- A factor, with the reading of what a group holds. -/
def factorWith (vars : Variables) (inner : Cursor → Outcome Float) (c : Cursor) : Outcome Float :=
  Outcome.after (.entering .factor c.position c.depth) <|
    match c.peek.kind with
    | .number => number c
    | .name => variableRead vars c
    | .openParen => group inner c
    | .function => call inner c
    | _ => .formFault (.unexpectedToken c.peek.display c.position) c

/-- The operators of a tier and their right operands, applied from left to right as long as they
follow. The first list bounds their number; the tokens ahead of the chain always do. -/
def chainFrom (tier : Tier) (operand : Cursor → Outcome Float) :
    List Token → Float → Cursor → Outcome Float
  | [], left, c => .value left c
  | _ :: bound, left, c =>
    match tier.operator? c.peek with
    | none => .value left c
    | some op =>
      (operand c.advance).andThen fun right next =>
        let result := op.apply left right
        (chainFrom tier operand bound result next).after (.operation op left right result)

/-- Operands joined by the operators of a tier. -/
def chain (tier : Tier) (operand : Cursor → Outcome Float) (c : Cursor) : Outcome Float :=
  (operand c).andThen fun left next => chainFrom tier operand next.ahead left next

/-- A term, with the reading of what a group holds. -/
def termWith (vars : Variables) (inner : Cursor → Outcome Float) (c : Cursor) : Outcome Float :=
  (chain .product (factorWith vars inner) c).after (.entering .term c.position c.depth)

/-- An expression, with the reading of what a group holds. -/
def expressionWith (vars : Variables) (inner : Cursor → Outcome Float) (c : Cursor) :
    Outcome Float :=
  (chain .sum (termWith vars inner) c).after (.entering .expression c.position c.depth)

/-- What a group holds, when so many more groups may be open inside it and the group itself. With
none left there is no such group, and the reading is refused like the group. -/
def groupBody (vars : Variables) : Nat → Cursor → Outcome Float
  | 0 => fun c => .formFault (.nestedTooDeep c.position) c
  | levels + 1 => expressionWith vars (groupBody vars levels)

/-- The groups that may still be opened at a cursor. -/
def levelsLeft (c : Cursor) : Nat := maxDepth - c.depth

end Expression

open Expression

/-- Reads a factor: a number, a variable, a group or a call. -/
def factor (vars : Variables) (c : Cursor) : Outcome Float :=
  factorWith vars (groupBody vars (levelsLeft c)) c

/-- Reads a term: factors joined by `*`, `/` and `^`. -/
def term (vars : Variables) (c : Cursor) : Outcome Float :=
  termWith vars (groupBody vars (levelsLeft c)) c

/-- Reads an expression: terms joined by `+` and `-`. -/
def expression (vars : Variables) (c : Cursor) : Outcome Float :=
  expressionWith vars (groupBody vars (levelsLeft c)) c

end LineCalculator
