import LineCalculator.Fault
import LineCalculator.Token

/-!
# Operators and functions

Five binary operators stand in two tiers. Powers share the tier of products, so no operator binds
tighter than a product, and all of them associate to the left. There is one function, the square
root. It refuses numbers below zero; negative zero and what is not a number are not below zero and
pass.
-/
namespace LineCalculator

/-! ## Operators -/

/-- The binary operators. -/
inductive Operator where
  | add
  | sub
  | mul
  | div
  | pow
  deriving DecidableEq, Repr

/-- The tiers of the operators; a sum is made of products. -/
inductive Tier where
  | sum
  | product
  deriving DecidableEq, Repr

namespace Operator

/-- The tier of an operator. -/
def tier : Operator → Tier
  | add => .sum
  | sub => .sum
  | mul => .product
  | div => .product
  | pow => .product

/-- The sign that an operator is written with. -/
def symbol : Operator → String
  | add => "+"
  | sub => "-"
  | mul => "*"
  | div => "/"
  | pow => "^"

/-- The operator that a sign stands for. -/
def ofSymbol? (text : String) : Option Operator :=
  if text = "+" then some add
  else if text = "-" then some sub
  else if text = "*" then some mul
  else if text = "/" then some div
  else if text = "^" then some pow
  else none

/-- The value of an operator at two operands, in binary64 arithmetic. No operand is refused:
a quotient by zero is infinite or not a number. -/
def apply : Operator → Float → Float → Float
  | add, left, right => left + right
  | sub, left, right => left - right
  | mul, left, right => left * right
  | div, left, right => left / right
  | pow, left, right => left ^ right

@[simp] theorem ofSymbol?_symbol (op : Operator) : ofSymbol? op.symbol = some op := by
  cases op <;> rfl

theorem ofSymbol?_eq_some_iff {text : String} {op : Operator} :
    ofSymbol? text = some op ↔ text = op.symbol := by
  refine ⟨fun h => ?_, fun h => h ▸ ofSymbol?_symbol op⟩
  unfold ofSymbol? at h
  repeat' split at h
  all_goals simp_all
  all_goals subst h
  all_goals rfl

end Operator

/-- The operator that a token stands for; an operator token with another text stands for none. -/
def Token.operator? (t : Token) : Option Operator :=
  if t.kind = .operator then Operator.ofSymbol? t.text else none

/-- The operator of a tier that a token stands for. -/
def Tier.operator? (tier : Tier) (t : Token) : Option Operator :=
  t.operator?.filter fun op => op.tier = tier

theorem Token.kind_of_operator? {t : Token} {op : Operator} (h : t.operator? = some op) :
    t.kind = .operator := by
  unfold Token.operator? at h
  split at h
  · assumption
  · simp at h

theorem Tier.operator?_eq_some_iff {tier : Tier} {t : Token} {op : Operator} :
    tier.operator? t = some op ↔ t.operator? = some op ∧ op.tier = tier := by
  simp [Tier.operator?, Option.filter_eq_some_iff]

theorem Token.kind_of_tier {tier : Tier} {op : Operator} {t : Token}
    (h : tier.operator? t = some op) : t.kind = .operator :=
  Token.kind_of_operator? (Tier.operator?_eq_some_iff.mp h).1

@[simp] theorem Tier.operator?_endOfLine (tier : Tier) : tier.operator? .endOfLine = none := rfl

/-! ## Functions -/

/-- The built-in functions. -/
inductive Builtin where
  | root
  deriving DecidableEq, Repr

namespace Builtin

/-- The name that a function is called by. -/
def name : Builtin → String
  | root => "root"

/-- The function of a name. -/
def ofName? (text : String) : Option Builtin :=
  if text = "root" then some root else none

/-- The non-negative square root; `position` is where a refusal is reported. -/
def squareRoot (argument : Float) (position : Nat) : Except ValueFault Float :=
  if argument < 0 then .error (.negativeRoot argument position) else .ok argument.sqrt

/-- The value of a function called at `position`. -/
def apply : Builtin → Float → Nat → Except ValueFault Float
  | root, argument, position => squareRoot argument position

@[simp] theorem ofName?_name (f : Builtin) : ofName? f.name = some f := by
  cases f; rfl

theorem ofName?_eq_some_iff {text : String} {f : Builtin} :
    ofName? text = some f ↔ text = f.name := by
  cases f
  simp [ofName?, name]

end Builtin

end LineCalculator
