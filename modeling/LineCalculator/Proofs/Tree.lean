import LineCalculator.Variables
import LineCalculator.Operation

/-!
# Expression trees

What an expression says apart from its variables. A number is kept by its value; a variable and a
call keep the index of the token they were read at, which is where their faults are reported.
Evaluation visits the left operand, then the right operand, then the node, and stops at the first
fault.
-/
namespace LineCalculator

/-- An expression without its parentheses. -/
inductive Tree where
  | number (value : Float)
  | name (text : String) (position : Nat)
  | operation (op : Operator) (left right : Tree)
  | call (f : Builtin) (position : Nat) (argument : Tree)
  deriving Repr

namespace Builtin

variable {argument : Float} {position : Nat}

theorem squareRoot_eq_ok_iff {value : Float} :
    squareRoot argument position = .ok value ↔ ¬ argument < 0 ∧ argument.sqrt = value := by
  unfold squareRoot
  split <;> simp [*]

theorem squareRoot_eq_error_iff {fault : ValueFault} :
    squareRoot argument position = .error fault ↔
      argument < 0 ∧ .negativeRoot argument position = fault := by
  unfold squareRoot
  split <;> simp [*]

end Builtin

namespace Tree

/-- The value of a tree, or its first fault. -/
def eval (vars : Variables) : Tree → Except ValueFault Float
  | .number value => .ok value
  | .name text position => vars.lookup text position
  | .operation op left right => do
    let x ← left.eval vars
    let y ← right.eval vars
    return op.apply x y
  | .call f position argument => do
    let x ← argument.eval vars
    f.apply x position

variable {vars : Variables} {op : Operator} {left right argument : Tree}

theorem eval_operation_ok {x y : Float} (hleft : left.eval vars = .ok x)
    (hright : right.eval vars = .ok y) :
    (operation op left right).eval vars = .ok (op.apply x y) := by
  simp [eval, hleft, hright, bind, Except.bind, pure, Except.pure]

theorem eval_operation_left {fault : ValueFault} (hleft : left.eval vars = .error fault) :
    (operation op left right).eval vars = .error fault := by
  simp [eval, hleft, bind, Except.bind]

theorem eval_operation_right {x : Float} {fault : ValueFault} (hleft : left.eval vars = .ok x)
    (hright : right.eval vars = .error fault) :
    (operation op left right).eval vars = .error fault := by
  simp [eval, hleft, hright, bind, Except.bind]

theorem eval_call_ok {x : Float} (hargument : argument.eval vars = .ok x) (f : Builtin)
    (position : Nat) : (call f position argument).eval vars = f.apply x position := by
  simp [eval, hargument, bind, Except.bind]

theorem eval_call_error {fault : ValueFault} (hargument : argument.eval vars = .error fault)
    (f : Builtin) (position : Nat) : (call f position argument).eval vars = .error fault := by
  simp [eval, hargument, bind, Except.bind]

end Tree

end LineCalculator
