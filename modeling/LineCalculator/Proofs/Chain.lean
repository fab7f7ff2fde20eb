import LineCalculator.Expression.Equations
import LineCalculator.Proofs.Tree

/-!
# Runs of a chain

A chain is followed from the trees of its operands: it resumes behind each operand with the value of
all that it has read, or ends with the first fault.
-/
namespace LineCalculator

namespace Cursor

/-- One cursor stands behind the given tokens of another, with the same groups open. -/
structure Passes (c : Cursor) (passed : List Token) (d : Cursor) : Prop where
  ahead : c.ahead = passed ++ d.ahead
  position : d.position = c.position + passed.length
  depth : d.depth = c.depth

namespace Passes

theorem append {c d e : Cursor} {first second : List Token} (hcd : c.Passes first d)
    (hde : d.Passes second e) : c.Passes (first ++ second) e := by
  constructor
  · rw [hcd.ahead, hde.ahead, List.append_assoc]
  · rw [hde.position, hcd.position, List.length_append, Nat.add_assoc]
  · rw [hde.depth, hcd.depth]

theorem advance {c : Cursor} (h : c.atEnd = false) : c.Passes [c.peek] c.advance := by
  rw [advance_of_not_atEnd h]
  exact ⟨ahead_of_not_atEnd h, rfl, rfl⟩

/-- What a cursor passes inside a group it passes around the group as well. -/
theorem leave {c d : Cursor} {inside : List Token} (h : c.deeper.Passes inside d)
    (hclose : d.atEnd = false) : c.Passes (inside ++ [d.peek]) d.advance.leaveGroup := by
  have hall := h.append (advance hclose)
  constructor
  · exact hall.ahead
  · exact hall.position
  · have hdepth := hall.depth
    simp only [depth_deeper] at hdepth
    simp only [leaveGroup]
    omega

end Passes

end Cursor

/-- An outcome is what a tree comes to: its value behind the last token, or its first fault. -/
def Outcome.Gives (o : Outcome Float) (value : Except ValueFault Float) (next : Cursor) : Prop :=
  match value with
  | .ok x => o.result = .ok x ∧ o.cursor = next
  | .error fault => o.result = .error (.value fault)

namespace Expression

variable {tier : Tier} {operand : Cursor → Outcome Float}

/-- A chain that has read the tokens of a tree stands behind them with its value, or has ended with
its fault. -/
def Resumes (vars : Variables) (tier : Tier) (operand : Cursor → Outcome Float) (tree : Tree)
    (c next : Cursor) : Prop :=
  match tree.eval vars with
  | .ok x => (chain tier operand c).result = (chainFrom tier operand next.ahead x next).result ∧
      (chain tier operand c).cursor = (chainFrom tier operand next.ahead x next).cursor
  | .error fault => (chain tier operand c).result = .error (.value fault)

variable {vars : Variables} {tree left right : Tree} {c mid next : Cursor}

theorem resumes_first (h : (operand c).Gives (tree.eval vars) next) :
    Resumes vars tier operand tree c next := by
  unfold Resumes chain
  cases hvalue : tree.eval vars with
  | ok x =>
    simp only [hvalue, Outcome.Gives] at h
    obtain ⟨hresult, rfl⟩ := h
    simp only [Outcome.andThen_ok hresult, and_self]
  | error fault =>
    simp only [hvalue, Outcome.Gives] at h
    simp only [Outcome.andThen_error h]

theorem resumes_step (hoperand : Progressive operand) {op : Operator}
    (h : Resumes vars tier operand left c mid) (hop : tier.operator? mid.peek = some op)
    (hright : (operand mid.advance).Gives (right.eval vars) next) :
    Resumes vars tier operand (.operation op left right) c next := by
  unfold Resumes at h ⊢
  cases hleft : left.eval vars with
  | error fault =>
    rw [Tree.eval_operation_left hleft]
    simpa only [hleft] using h
  | ok x =>
    simp only [hleft] at h
    rw [chainFrom_ahead hoperand] at h
    simp only [hop] at h
    obtain ⟨hresult, hcursor⟩ := h
    cases hvalue : right.eval vars with
    | error fault =>
      simp only [hvalue, Outcome.Gives] at hright
      rw [Tree.eval_operation_right hleft hvalue]
      simp only [hresult, Outcome.andThen_error hright]
    | ok y =>
      simp only [hvalue, Outcome.Gives] at hright
      obtain ⟨hy, rfl⟩ := hright
      rw [Tree.eval_operation_ok hleft hvalue]
      simp only [hresult, hcursor, Outcome.andThen_ok hy, Outcome.result_after,
        Outcome.cursor_after, and_self]

theorem gives_of_resumes (hoperand : Progressive operand)
    (h : Resumes vars tier operand tree c next) (hstop : tier.operator? next.peek = none) :
    (chain tier operand c).Gives (tree.eval vars) next := by
  unfold Resumes at h
  cases hvalue : tree.eval vars with
  | ok x =>
    simp only [hvalue] at h
    rw [chainFrom_ahead hoperand] at h
    simp only [hstop] at h
    exact h
  | error fault =>
    simp only [hvalue] at h
    exact h

end Expression

end LineCalculator
