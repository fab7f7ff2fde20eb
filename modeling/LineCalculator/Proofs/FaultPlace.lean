import LineCalculator.Proofs.Moves
import LineCalculator.Proofs.Runs

/-!
# Where faults are found

Every fault of a reading is found at a cursor that the reading comes to. It carries the index of that
cursor, and what its message quotes is the token there.
-/
namespace LineCalculator

/-- What a fault quotes is taken from a token; the name of a function that lacks its argument is the
name of a built-in one. -/
def Fault.Quotes : Fault → Token → Prop
  | form (.unexpectedToken found _), t => found = t.display
  | form (.malformedNumber literal _), t => literal = t.text
  | form (.expectedOpenParen function _), _ => ∃ f : Builtin, function = f.name
  | form (.unclosedParenthesis _), _ => True
  | form (.nestedTooDeep _), _ => True
  | value (.undefinedVariable name _), t => name = t.text
  | value (.negativeRoot _ _), _ => True

/-- A fault carries the index of a cursor and quotes the token there. -/
structure Fault.FoundAt (fault : Fault) (d : Cursor) : Prop where
  position : fault.position = d.position
  quotes : fault.Quotes d.peek

theorem Builtin.foundAt_of_apply {f : Builtin} {x : Float} {fault : ValueFault} {c : Cursor}
    (h : f.apply x c.position = .error fault) : (Fault.value fault).FoundAt c := by
  cases f
  obtain ⟨-, rfl⟩ := Builtin.squareRoot_eq_error_iff.mp h
  exact ⟨rfl, trivial⟩

namespace Cursor.Reaches

variable {c d : Cursor}

theorem deeper_advance (c : Cursor) : c.Reaches c.deeper.advance := (deeper c).trans (advance _)

theorem peek_mem (h : c.Reaches d) : d.peek ∈ c.ahead ∨ d.peek = .endOfLine := by
  obtain ⟨passed, hahead, -, -⟩ := h
  cases hd : d.ahead with
  | nil => exact .inr (by simp [peek, hd])
  | cons t rest => exact .inl (by simp [hahead, peek, hd])

end Cursor.Reaches

namespace Runs

variable {vars : Variables} {part : Part} {c : Cursor} {o : Outcome Float}

open Cursor.Reaches in
/-- A run ends at or behind where it starts. -/
theorem reaches (h : Runs vars part c o) : c.Reaches o.cursor := by
  induction h with
  | number | malformed | variableRead => exact advance _
  | undefined | unexpected | tooDeep => exact refl _
  | unknown | unopened => exact deeper_advance _
  | group _ _ _ ih => exact (deeper_advance _).trans ih
  | unargued _ _ _ _ _ _ ih | refused _ _ _ _ _ _ _ ih | called _ _ _ _ _ _ _ ih =>
    exact ((deeper_advance _).trans (advance _)).trans ih
  | unfilled _ _ ih | unclosed _ _ _ ih => exact ih
  | closed _ _ _ ih => exact ih.trans ((advance _).trans (leaveGroup _))
  | operand _ ih | factor _ ih | joined _ _ ih => exact ih
  | halted _ _ _ _ _ ihleft ihright | operation _ _ _ _ _ ihleft ihright =>
    exact (ihleft.trans (advance _)).trans ihright

open Cursor.Reaches in
/-- The fault of a run is found at a cursor that it comes to. -/
theorem fault_foundAt {fault : Fault} (h : Runs vars part c o) (hfault : o.result = .error fault) :
    ∃ d, c.Reaches d ∧ fault.FoundAt d := by
  induction h with
  | number | variableRead | called | closed | operation => cases hfault
  | malformed | undefined | unexpected | tooDeep | unknown =>
    cases hfault
    exact ⟨_, refl _, rfl, by first | rfl | trivial⟩
  | unopened =>
    cases hfault
    exact ⟨_, deeper_advance _, rfl, _, rfl⟩
  | refused _ _ _ _ _ _ happly =>
    cases hfault
    exact ⟨_, refl _, Builtin.foundAt_of_apply happly⟩
  | unclosed h _ _ =>
    cases hfault
    exact ⟨_, h.reaches, rfl, trivial⟩
  | group _ _ _ ih =>
    obtain ⟨d, hd, hfound⟩ := ih hfault
    exact ⟨d, (deeper_advance _).trans hd, hfound⟩
  | unargued _ _ _ _ _ _ ih =>
    obtain ⟨d, hd, hfound⟩ := ih hfault
    exact ⟨d, ((deeper_advance _).trans (advance _)).trans hd, hfound⟩
  | unfilled _ _ ih | operand _ ih | factor _ ih | joined _ _ ih => exact ih hfault
  | halted h _ _ _ hright _ ihright =>
    cases hfault
    obtain ⟨d, hd, hfound⟩ := ihright hright
    exact ⟨d, (h.reaches.trans (advance _)).trans hd, hfound⟩

end Runs

namespace Statement

/-- The fault of a statement is found at a cursor that it comes to. -/
theorem fault_foundAt {vars : Variables} {c : Cursor} {fault : Fault}
    (h : (statement vars c).result = .error fault) : ∃ d, c.Reaches d ∧ fault.FoundAt d := by
  have hexpression := Runs.expression_reading vars (heading c).2
  obtain ⟨d, hd, hfound⟩ := hexpression.fault_foundAt (result_eq_error_iff.mp h)
  exact ⟨d, (moves_heading c).reaches.trans hd, hfound⟩

end Statement

end LineCalculator
