import LineCalculator.Proofs.FaultPlace
import LineCalculator.Proofs.GrammarAdequacy
import LineCalculator.Proofs.Rendering

/-!
# Open groups and the parentheses behind them

A group is open from its parenthesis on, a call from its name on. Since the parenthesis of a call
follows its name at once, wherever a rule is entered or left the cursor counts as many groups as the
parentheses show that it has passed since it started.
-/
namespace LineCalculator

namespace Cursor

/-- One cursor is further along the same list than another, or at the same place, and has as many
more groups open as the parentheses between them leave open. -/
def Tallies (c d : Cursor) : Prop :=
  ∃ passed, c.ahead = passed ++ d.ahead ∧ d.position = c.position + passed.length ∧
    d.depth + closed passed = c.depth + opened passed

namespace Tallies

variable {c d e : Cursor}

theorem refl (c : Cursor) : c.Tallies c := ⟨[], rfl, rfl, rfl⟩

theorem trans (hcd : c.Tallies d) (hde : d.Tallies e) : c.Tallies e := by
  obtain ⟨first, hc, hd, hfirst⟩ := hcd
  obtain ⟨second, hd', he, hsecond⟩ := hde
  have hopened : opened (first ++ second) = opened first + opened second := List.countP_append
  have hclosed : closed (first ++ second) = closed first + closed second := List.countP_append
  refine ⟨first ++ second, by rw [hc, hd', List.append_assoc], ?_, by omega⟩
  rw [he, hd, List.length_append, Nat.add_assoc]

/-- A token that is no parenthesis. -/
theorem advance (hend : c.atEnd = false) (hopen : c.peek.kind ≠ .openParen)
    (hclose : c.peek.kind ≠ .closeParen) : c.Tallies c.advance := by
  rw [advance_of_not_atEnd hend]
  exact ⟨[c.peek], ahead_of_not_atEnd hend, rfl, by simp [opened, closed, hopen, hclose]⟩

theorem advance_of_kind {kind : TokenKind} (hkind : c.peek.kind = kind)
    (hplain : kind ∉ [.openParen, .closeParen, .endOfLine]) : c.Tallies c.advance := by
  simp only [List.mem_cons, List.not_mem_nil, or_false, not_or] at hplain
  obtain ⟨hopen, hclose, hend⟩ := hplain
  exact advance (atEnd_eq_false_iff.mpr (hkind ▸ hend)) (hkind ▸ hopen) (hkind ▸ hclose)

/-- A group is open behind its parenthesis. -/
theorem deeper_advance (hkind : c.peek.kind = .openParen) : c.Tallies c.deeper.advance := by
  have hend : c.deeper.atEnd = false := atEnd_eq_false_iff.mpr (by simp [hkind])
  rw [advance_of_not_atEnd hend]
  refine ⟨[c.peek], ahead_of_not_atEnd hend, rfl, ?_⟩
  simp [opened, closed, hkind]

/-- A call is open behind the parenthesis that follows its name. -/
theorem deeper_advance_advance (hkind : c.peek.kind = .function)
    (hopen : c.deeper.advance.peek.kind = .openParen) :
    c.Tallies c.deeper.advance.advance := by
  have hname : c.deeper.atEnd = false := atEnd_eq_false_iff.mpr (by simp [hkind])
  have hbehind : c.deeper.advance.atEnd = false := atEnd_eq_false_iff.mpr (by simp [hopen])
  have hahead : c.ahead = c.peek :: c.deeper.advance.ahead := by
    rw [advance_of_not_atEnd hname]
    exact ahead_of_not_atEnd hname
  have hposition : c.deeper.advance.position = c.position + 1 := by
    rw [advance_of_not_atEnd hname]
    rfl
  have hrest : c.deeper.advance.ahead = c.deeper.advance.peek :: c.deeper.advance.ahead.tail :=
    ahead_of_not_atEnd hbehind
  rw [advance_of_not_atEnd hbehind]
  refine ⟨[c.peek, c.deeper.advance.peek], ?_, ?_, ?_⟩
  · rw [hahead, hrest]
    rfl
  · simp [hposition]
  · simp [opened, closed, hkind, hopen]

theorem position_le (h : c.Tallies d) : c.position ≤ d.position := by
  obtain ⟨passed, -, hposition, -⟩ := h
  omega

variable {tokens : List Token} {start depth : Nat}

/-- Where a cursor comes to in a list is told by its index and the groups that are open. -/
theorem eq_place (h : (place tokens start depth).Tallies d) : d = place tokens d.position d.depth := by
  obtain ⟨passed, hahead, hposition, -⟩ := h
  have hahead : tokens.drop start = passed ++ d.ahead := hahead
  have hposition : d.position = start + passed.length := hposition
  have hdrop : d.ahead = tokens.drop d.position := by
    rw [hposition, ← List.drop_drop, hahead, List.drop_left]
  rw [place, ← hdrop]

/-- The parentheses that stand between two indices of a list. -/
theorem depth_eq (h : (place tokens start depth).Tallies d) :
    d.depth + closed (tokens.extract start d.position) =
      depth + opened (tokens.extract start d.position) := by
  obtain ⟨passed, hahead, hposition, hdepth⟩ := h
  have hahead : tokens.drop start = passed ++ d.ahead := hahead
  have hposition : d.position = start + passed.length := hposition
  have hpassed : tokens.extract start d.position = passed := by
    rw [List.extract_eq_take_drop, hahead, hposition, Nat.add_sub_cancel_left, List.take_left']
    rfl
  rw [hpassed]
  exact hdepth

theorem depth_eq_openGroups (h : (place tokens start 0).Tallies d) :
    d.depth = openGroups (tokens.extract start d.position) := by
  have hdepth := h.depth_eq
  unfold openGroups
  omega

end Tallies

end Cursor

theorem Spells.balanced {rule : Rule} {depth position : Nat} {tokens : List Token} {tree : Tree}
    (h : Spells rule depth position tokens tree) : opened tokens = closed tokens := by
  unfold opened closed
  induction h with
  | number hkind _ | name hkind => simp [hkind]
  | group hopening hclosing _ _ ih => simp [hopening, hclosing, ih]
  | call hkind _ hopening hclosing _ _ ih => simp [hkind, hopening, hclosing, ih]
  | factor _ ih | term _ ih => exact ih
  | product _ hop _ ihleft ihright | sum _ hop _ ihleft ihright =>
    simp [Token.kind_of_tier hop, ihleft, ihright]

variable {vars : Variables} {c d : Cursor} {o : Outcome Float} {x : Float}

/-- What has a value has closed the groups that it opened. -/
theorem Derives.balanced {rule : Rule} {depth : Nat} {tokens : List Token}
    (h : Derives vars rule depth tokens x) : opened tokens = closed tokens := by
  obtain ⟨tree, hspells, -⟩ := h.exists_tree 0
  exact hspells.balanced

theorem Derives.tallies {rule : Rule} {depth : Nat} {passed : List Token}
    (h : Derives vars rule depth passed x) (hpass : c.Passes passed d) : c.Tallies d :=
  ⟨passed, hpass.ahead, hpass.position, by rw [hpass.depth, h.balanced]⟩

namespace Runs

theorem tallies_of_rule {rule : Rule} (h : Runs vars (.rule rule) c o) (hx : o.result = .ok x) :
    c.Tallies o.cursor ∧ o.cursor.depth = c.depth := by
  obtain ⟨passed, hpass, hderives, -⟩ := h.derived hx
  exact ⟨hderives.tallies hpass, hpass.depth⟩

theorem tallies_of_chain {tier : Tier} (h : Runs vars (.chain tier) c o) (hx : o.result = .ok x) :
    c.Tallies o.cursor := by
  obtain ⟨passed, hpass, hderives, -⟩ := h.derived hx
  exact hderives.tallies hpass

end Runs

end LineCalculator
