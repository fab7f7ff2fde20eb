import LineCalculator.Fault
import Std.Data.ExtTreeMap

/-!
# Variables

The named values of a session, in the order of their names. Two sets of variables are the same when
they give every name the same value. Nothing ever takes a name away.
-/
namespace LineCalculator

/-- The values of the names that have been assigned. -/
abbrev Variables := Std.ExtTreeMap String Float

namespace Variables

/-- The value of a name that is read at `position`. There is no value for a name that was never
assigned. -/
def lookup (vars : Variables) (name : String) (position : Nat) : Except ValueFault Float :=
  match vars[name]? with
  | some value => .ok value
  | none => .error (.undefinedVariable name position)

/-- The variables after assigning the pairs from left to right. -/
def assignAll (vars : Variables) (pairs : List (String × Float)) : Variables :=
  pairs.foldl (fun vars pair => vars.insert pair.1 pair.2) vars

theorem lookup_eq_ok_iff {vars : Variables} {name : String} {position : Nat} {value : Float} :
    lookup vars name position = .ok value ↔ vars[name]? = some value := by
  unfold lookup
  cases vars[name]? <;> simp

theorem lookup_eq_error_iff {vars : Variables} {name : String} {position : Nat}
    {fault : ValueFault} :
    lookup vars name position = .error fault ↔
      vars[name]? = none ∧ fault = .undefinedVariable name position := by
  unfold lookup
  cases vars[name]? <;> simp [eq_comm]

@[simp] theorem assignAll_nil (vars : Variables) : assignAll vars [] = vars := rfl

@[simp] theorem assignAll_cons (vars : Variables) (pair : String × Float)
    (pairs : List (String × Float)) :
    assignAll vars (pair :: pairs) = assignAll (vars.insert pair.1 pair.2) pairs := rfl

theorem ext_lookup {vars others : Variables} (h : ∀ name : String, vars[name]? = others[name]?) :
    vars = others :=
  Std.ExtTreeMap.ext_getElem? h

end Variables

end LineCalculator
