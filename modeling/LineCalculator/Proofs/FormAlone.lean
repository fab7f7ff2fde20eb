import LineCalculator.Proofs.OnePass

/-!
# What the form of a line settles

Two evaluations of the same tokens under different variables follow the same parse. Either both get
through it alike, or one of them meets a fault in value on the way and stops there, no further along
than the other. So the variables decide which values a line has and where it meets a fault in value,
but neither which faults in form it has nor where a statement that succeeds ends.
-/
namespace LineCalculator

/-- An outcome ends with a fault in value, no further along than a position. -/
def Outcome.StopsBy {α : Type} (o : Outcome α) (position : Nat) : Prop :=
  ∃ fault, o.result = .error (.value fault) ∧ o.cursor.position ≤ position

namespace Follows

variable {vars others : Variables} {o p : Outcome Float} {r : Parsed Tree}

/-- A fault in form shows again under other variables, unless a fault in value comes first. -/
theorem same_fault_or_stopsBy (h : Follows vars o r) (hother : Follows others p r)
    {e : FormFault} (he : o.result = .error (.form e)) :
    (p.result = .error (.form e) ∧ p.cursor = o.cursor) ∨ p.StopsBy o.cursor.position := by
  cases h with
  | value _ hresult _ => rw [hresult] at he; cases he
  | fault _ hresult _ => rw [hresult] at he; cases he
  | early hresult _ => rw [hresult] at he; cases he
  | refused hresult hcursor =>
    rw [hresult] at he
    cases he
    cases hother with
    | refused hsame hstop => exact .inl ⟨hsame, hstop.trans hcursor.symm⟩
    | early hearly hstop => exact .inr ⟨_, hearly, hcursor ▸ hstop⟩

/-- Where there is a value, there is one behind the same tokens under other variables, unless a
fault in value comes first. -/
theorem value_or_stopsBy (h : Follows vars o r) (hother : Follows others p r)
    {x : Float} (hx : o.result = .ok x) :
    (∃ y, p.result = .ok y ∧ p.cursor = o.cursor) ∨ p.StopsBy o.cursor.position := by
  cases h with
  | fault _ hresult _ => rw [hresult] at hx; cases hx
  | refused hresult _ => rw [hresult] at hx; cases hx
  | early hresult _ => rw [hresult] at hx; cases hx
  | value _ _ hcursor =>
    cases hother with
    | value _ hy hnext => exact .inl ⟨_, hy, hnext.trans hcursor.symm⟩
    | fault _ hearly hstop => exact .inr ⟨_, hearly, hcursor ▸ hstop⟩

end Follows

theorem Statement.stopsBy {vars : Variables} {c : Cursor} {position : Nat}
    (h : (expression vars (heading c).2).StopsBy position) :
    (statement vars c).StopsBy position := by
  obtain ⟨fault, hresult, hstop⟩ := h
  exact ⟨fault, result_of_fault hresult, cursor_eq_heading ▸ hstop⟩

/-- Under other variables a fault in form stays the same fault at the same place, and a statement
that succeeds keeps its form and the tokens it takes. The only other outcome is a fault in value, no
further along. -/
theorem statement_under_other_variables (vars others : Variables) (c : Cursor) :
    (∀ e, (statement vars c).result = .error (.form e) →
      ((statement others c).result = .error (.form e) ∧
          (statement others c).cursor = (statement vars c).cursor) ∨
        (statement others c).StopsBy (statement vars c).cursor.position) ∧
    ∀ form x, (statement vars c).result = .ok ⟨form, x⟩ →
      (∃ y, (statement others c).result = .ok ⟨form, y⟩ ∧
          (statement others c).cursor = (statement vars c).cursor) ∨
        (statement others c).StopsBy (statement vars c).cursor.position := by
  have hfollows := Expression.follows_expression vars (Statement.heading c).2
  have hother := Expression.follows_expression others (Statement.heading c).2
  rw [Statement.cursor_eq_heading, Statement.cursor_eq_heading]
  constructor
  · intro e he
    rcases hfollows.same_fault_or_stopsBy hother (Statement.result_eq_error_iff.mp he) with
      ⟨hsame, hcursor⟩ | hstop
    · exact .inl ⟨Statement.result_of_fault hsame, hcursor⟩
    · exact .inr (Statement.stopsBy hstop)
  · intro form x hx
    obtain ⟨rfl, hvalue⟩ := Statement.result_eq_ok_iff.mp hx
    rcases hfollows.value_or_stopsBy hother hvalue with ⟨y, hy, hcursor⟩ | hstop
    · exact .inl ⟨y, Statement.result_of_value hy, hcursor⟩
    · exact .inr (Statement.stopsBy hstop)

/-- A group that is never closed is such a fault while the name in it has a value; without one, the
name is reported and the end of the line is not reached. A name alone has the value, or is
reported. -/
theorem unclosed_group_under_no_variables :
    let vars : Variables := (∅ : Variables).insert "x" 1
    let name : Token := ⟨.name, "x"⟩
    let c := Cursor.atIndex [⟨.openParen, "("⟩, name, .endOfLine] 0
    let d := Cursor.atIndex [name] 0
    ((statement vars c).result = .error (.form (.unclosedParenthesis 2)) ∧
        (statement ∅ c).StopsBy 2) ∧
      (statement vars d).result = .ok ⟨.expression, 1⟩ ∧ (statement ∅ d).StopsBy 1 := by
  intro vars name c d
  have hfault : (statement vars c).result = .error (.form (.unclosedParenthesis 2)) ∧
      (statement vars c).cursor.position = 2 := by
    simp only [vars, c, name]
    exact ⟨rfl, rfl⟩
  have hvalue : (statement vars d).result = .ok ⟨.expression, 1⟩ ∧
      (statement vars d).cursor.position = 1 := by
    simp only [vars, d, name]
    exact ⟨rfl, rfl⟩
  refine ⟨⟨hfault.1, ?_⟩, hvalue.1, ?_⟩
  · rcases (statement_under_other_variables vars ∅ c).1 _ hfault.1 with ⟨hsame, -⟩ | hstop
    · cases hsame
    · exact hfault.2 ▸ hstop
  · rcases (statement_under_other_variables vars ∅ d).2 _ _ hvalue.1 with ⟨y, hy, -⟩ | hstop
    · cases hy
    · exact hvalue.2 ▸ hstop

end LineCalculator
