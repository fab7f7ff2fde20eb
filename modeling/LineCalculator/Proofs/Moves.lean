import LineCalculator.Proofs.AttributedGrammar
import LineCalculator.Proofs.Heading

/-!
# Moves of the cursor

A rule handles the cursor in three ways only: it passes a token, opens a group below the limit, or
closes one. So whatever these moves keep, the rule keeps, and at every rule that it enters on its
way the cursor stands where moves have brought it.
-/
namespace LineCalculator

namespace Cursor

namespace Reaches

variable {tokens : List Token} {start : Nat} {c d : Cursor}

/-- What a cursor passes stands in the list and ends no line. -/
theorem exists_passed (h : (atIndex tokens start).Reaches d) {i : Nat} (hstart : start ≤ i)
    (hi : i < d.position) : ∃ t, tokens[i]? = some t ∧ t.kind ≠ .endOfLine := by
  obtain ⟨passed, hahead, hposition, hkind⟩ := h
  have hahead : tokens.drop start = passed ++ d.ahead := hahead
  have hposition : d.position = start + passed.length := hposition
  have hlt : i - start < passed.length := by omega
  refine ⟨passed[i - start], ?_, hkind _ (List.getElem_mem hlt)⟩
  have hindex := congrArg (fun list => list[i - start]?) hahead
  simp only [List.getElem?_drop, List.getElem?_append_left hlt] at hindex
  rw [show start + (i - start) = i by omega] at hindex
  rw [hindex, List.getElem?_eq_getElem hlt]

theorem ahead_eq_drop (h : (atIndex tokens start).Reaches d) :
    d.ahead = tokens.drop d.position := by
  obtain ⟨passed, hahead, hposition, -⟩ := h
  have hahead : tokens.drop start = passed ++ d.ahead := hahead
  have hposition : d.position = start + passed.length := hposition
  rw [hposition, ← List.drop_drop, hahead, List.drop_left]

/-- The index behind a token of a list is at most the length of the list. -/
theorem succ_position_le (h : (atIndex tokens start).Reaches d) (hend : d.atEnd = false) :
    d.position + 1 ≤ tokens.length := by
  have hlength := congrArg List.length h.ahead_eq_drop
  rw [ahead_of_not_atEnd hend, List.length_cons, List.length_drop] at hlength
  omega

theorem position_lt (h : c.Reaches d) (hahead : d.ahead.length < c.ahead.length) :
    c.position < d.position := by
  have := h.length_ahead
  omega

end Reaches

/-- One cursor comes from another by passing tokens, opening groups below the limit and closing
groups. -/
inductive Moves (c : Cursor) : Cursor → Prop where
  | stay : Moves c c
  | advance {d : Cursor} (h : Moves c d) : Moves c d.advance
  | deeper {d : Cursor} (h : Moves c d) (hdepth : d.depth < maxDepth) : Moves c d.deeper
  | leaveGroup {d : Cursor} (h : Moves c d) : Moves c d.leaveGroup

namespace Moves

variable {c d e : Cursor}

theorem trans (hcd : c.Moves d) (hde : d.Moves e) : c.Moves e := by
  induction hde with
  | stay => exact hcd
  | advance _ ih => exact ih.advance
  | deeper _ hdepth ih => exact ih.deeper hdepth
  | leaveGroup _ ih => exact ih.leaveGroup

theorem reaches (h : c.Moves d) : c.Reaches d := by
  induction h with
  | stay => exact .refl c
  | advance _ ih => exact ih.trans (.advance _)
  | deeper _ _ ih => exact ih.trans (.deeper _)
  | leaveGroup _ ih => exact ih.trans (.leaveGroup _)

/-- No move opens more groups than may be open. -/
theorem depth_le (h : c.Moves d) (hc : c.depth ≤ maxDepth) : d.depth ≤ maxDepth := by
  induction h with
  | stay => exact hc
  | advance _ ih => simpa using ih
  | deeper _ hdepth _ => exact hdepth
  | leaveGroup _ ih => exact Nat.le_trans (Nat.sub_le _ _) ih

end Moves

end Cursor

/-- An outcome is reached from a cursor by moves, and so is every rule that was entered on the
way. -/
structure Outcome.MovesFrom {α : Type} (c : Cursor) (o : Outcome α) : Prop where
  stop : c.Moves o.cursor
  entered : ∀ rule position depth, .entering rule position depth ∈ o.events →
    ∃ d : Cursor, c.Moves d ∧ d.Moves o.cursor ∧ d.position = position ∧ d.depth = depth

namespace Outcome.MovesFrom

variable {α β : Type} {c d : Cursor} {o : Outcome α}

/-- An outcome on whose way no rule was entered. -/
theorem of_moves (h : c.Moves o.cursor)
    (hevents : ∀ rule position depth, .entering rule position depth ∉ o.events) :
    o.MovesFrom c :=
  ⟨h, fun rule position depth hevent => absurd hevent (hevents rule position depth)⟩

theorem value (x : α) (h : c.Moves d) : (Outcome.value x d).MovesFrom c :=
  of_moves h fun _ _ _ => List.not_mem_nil

theorem formFault (fault : FormFault) (h : c.Moves d) :
    (Outcome.formFault fault d : Outcome α).MovesFrom c :=
  of_moves h fun _ _ _ => List.not_mem_nil

theorem valueFault (fault : ValueFault) (h : c.Moves d) :
    (Outcome.valueFault fault d : Outcome α).MovesFrom c :=
  of_moves h fun _ _ _ => List.not_mem_nil

theorem trans (hmoves : c.Moves d) (h : o.MovesFrom d) : o.MovesFrom c := by
  refine ⟨hmoves.trans h.stop, fun rule position depth hevent => ?_⟩
  obtain ⟨e, hde, hstop, hplace⟩ := h.entered rule position depth hevent
  exact ⟨e, hmoves.trans hde, hstop, hplace⟩

theorem after (h : o.MovesFrom c) {event : Event}
    (hevent : ∀ rule position depth, .entering rule position depth ≠ event) :
    (o.after event).MovesFrom c := by
  refine ⟨h.stop, fun rule position depth hmem => ?_⟩
  rcases List.mem_cons.mp hmem with heq | hmem
  · exact absurd heq (hevent rule position depth)
  · exact h.entered rule position depth hmem

theorem after_entering (h : o.MovesFrom c) (rule : Rule) :
    (o.after (.entering rule c.position c.depth)).MovesFrom c := by
  refine ⟨h.stop, fun other position depth hmem => ?_⟩
  rcases List.mem_cons.mp hmem with heq | hmem
  · obtain ⟨-, rfl, rfl⟩ := Event.entering.inj heq
    exact ⟨c, .stay, h.stop, rfl, rfl⟩
  · exact h.entered other position depth hmem

theorem andThen (h : o.MovesFrom c) {next : α → Cursor → Outcome β}
    (hnext : ∀ x d, (next x d).MovesFrom d) : (o.andThen next).MovesFrom c := by
  cases hresult : o.result with
  | error fault =>
    rw [andThen_error hresult]
    exact ⟨h.stop, h.entered⟩
  | ok x =>
    have hrest := hnext x o.cursor
    rw [andThen_ok hresult]
    refine ⟨h.stop.trans hrest.stop, fun rule position depth hmem => ?_⟩
    rcases List.mem_append.mp hmem with hmem | hmem
    · obtain ⟨d, hcd, hstop, hplace⟩ := h.entered rule position depth hmem
      exact ⟨d, hcd, hstop.trans hrest.stop, hplace⟩
    · obtain ⟨d, hcd, hstop, hplace⟩ := hrest.entered rule position depth hmem
      exact ⟨d, h.stop.trans hcd, hstop, hplace⟩

end Outcome.MovesFrom

namespace Expression

/-- A reading that only moves the cursor, from wherever it starts. -/
def Moving (reading : Cursor → Outcome Float) : Prop := ∀ c, (reading c).MovesFrom c

theorem moving_number : Moving number := by
  intro c
  unfold number
  split
  · exact (Outcome.MovesFrom.value _ (.advance .stay)).after fun _ _ _ h => by cases h
  · exact .formFault _ (.advance .stay)

theorem moving_variableRead (vars : Variables) : Moving (variableRead vars) := by
  intro c
  unfold variableRead
  split
  · exact (Outcome.MovesFrom.value _ (.advance .stay)).after fun _ _ _ h => by cases h
  · exact .valueFault _ .stay

theorem moving_closeGroup (value : Float) : Moving (closeGroup value) := by
  intro c
  unfold closeGroup
  split
  · rename_i closed hclosed
    obtain ⟨-, rfl⟩ := Cursor.eat?_eq_some_iff.mp hclosed
    exact .value _ (.leaveGroup (.advance .stay))
  · exact .formFault _ .stay

theorem moving_applyAt (f : Builtin) (position : Nat) (argument : Float) :
    Moving (applyAt f position argument) := by
  intro c
  unfold applyAt
  split
  · exact (Outcome.MovesFrom.value _ .stay).after fun _ _ _ h => by cases h
  · exact .valueFault _ .stay

variable {inner operand : Cursor → Outcome Float}

theorem moving_group (hinner : Moving inner) : Moving (group inner) := by
  intro c
  unfold group
  split
  · rename_i opened hopened
    obtain ⟨hdepth, rfl⟩ := Cursor.enterGroup_eq_ok_iff.mp hopened
    have hopen : c.Moves c.deeper.advance := .advance (.deeper .stay hdepth)
    exact (Outcome.MovesFrom.trans hopen (hinner _)).andThen moving_closeGroup
  · exact .formFault _ .stay

theorem moving_call (hinner : Moving inner) : Moving (call inner) := by
  intro c
  unfold call
  split
  · exact .formFault _ .stay
  · rename_i opened hopened
    obtain ⟨hdepth, rfl⟩ := Cursor.enterGroup_eq_ok_iff.mp hopened
    have hnamed : c.Moves c.deeper.advance := .advance (.deeper .stay hdepth)
    dsimp only
    split
    · exact .formFault _ hnamed
    · split
      · exact .formFault _ hnamed
      · rename_i f _ _ argument hargument
        obtain ⟨-, rfl⟩ := Cursor.eat?_eq_some_iff.mp hargument
        have hread := Outcome.MovesFrom.trans hnamed.advance (hinner _)
        exact (hread.andThen moving_closeGroup).andThen (moving_applyAt f c.position)

theorem moving_factorWith (vars : Variables) (hinner : Moving inner) :
    Moving (factorWith vars inner) := by
  intro c
  unfold factorWith
  refine Outcome.MovesFrom.after_entering ?_ .factor
  split
  · exact moving_number c
  · exact moving_variableRead vars c
  · exact moving_group hinner c
  · exact moving_call hinner c
  · exact .formFault _ .stay

theorem moving_chainFrom (tier : Tier) (hoperand : Moving operand) (bound : List Token)
    (left : Float) : Moving (chainFrom tier operand bound left) := by
  induction bound generalizing left with
  | nil => exact fun c => .value left .stay
  | cons t bound ih =>
    intro c
    unfold chainFrom
    split
    · exact .value left .stay
    · have hoperator : c.Moves c.advance := .advance .stay
      refine (Outcome.MovesFrom.trans hoperator (hoperand _)).andThen fun right next => ?_
      exact (ih _ next).after fun _ _ _ h => by cases h

theorem moving_chain (tier : Tier) (hoperand : Moving operand) : Moving (chain tier operand) :=
  fun c => (hoperand c).andThen fun left next => moving_chainFrom tier hoperand _ left next

theorem moving_termWith (vars : Variables) (hinner : Moving inner) :
    Moving (termWith vars inner) :=
  fun c => (moving_chain .product (moving_factorWith vars hinner) c).after_entering .term

theorem moving_expressionWith (vars : Variables) (hinner : Moving inner) :
    Moving (expressionWith vars inner) :=
  fun c => (moving_chain .sum (moving_termWith vars hinner) c).after_entering .expression

theorem moving_groupBody (vars : Variables) (levels : Nat) : Moving (groupBody vars levels) := by
  induction levels with
  | zero => exact fun c => .formFault _ .stay
  | succ levels ih => exact moving_expressionWith vars ih

theorem moving_reading (vars : Variables) (rule : Rule) : Moving (rule.reading vars) := by
  intro c
  have hinner := moving_groupBody vars (levelsLeft c)
  cases rule with
  | expression => exact moving_expressionWith vars hinner c
  | term => exact moving_termWith vars hinner c
  | factor => exact moving_factorWith vars hinner c

end Expression

namespace Statement

variable {c : Cursor}

theorem moves_heading (c : Cursor) : c.Moves (heading c).2 := by
  unfold heading
  split
  · exact .advance (.advance .stay)
  · split
    · rename_i printed hprinted
      obtain ⟨-, rfl⟩ := Cursor.eat?_eq_some_iff.mp hprinted
      exact .advance .stay
    · exact .stay

theorem movesFrom_leftOver (e : Evaluation) (c : Cursor) : (leftOver e c).MovesFrom c := by
  unfold leftOver
  split
  · exact .value e .stay
  · exact (Outcome.MovesFrom.value e .stay).after fun _ _ _ h => by cases h

theorem movesFrom_body (vars : Variables) (c : Cursor) : (body vars c).MovesFrom c := by
  have hexpression (d : Cursor) : (expression vars d).MovesFrom d :=
    Expression.moving_reading vars .expression d
  unfold body
  split
  · refine (Outcome.MovesFrom.trans (.advance (.advance .stay)) (hexpression _)).andThen ?_
    exact fun x d => (Outcome.MovesFrom.value _ .stay).after fun _ _ _ h => by cases h
  · split
    · rename_i printed hprinted
      obtain ⟨-, rfl⟩ := Cursor.eat?_eq_some_iff.mp hprinted
      refine (Outcome.MovesFrom.trans (.advance .stay) (hexpression _)).andThen ?_
      exact fun x d => (Outcome.MovesFrom.value _ .stay).after fun _ _ _ h => by cases h
    · exact (hexpression c).andThen fun x d => .value _ .stay

end Statement

theorem movesFrom_statement (vars : Variables) (c : Cursor) : (statement vars c).MovesFrom c :=
  ((Statement.movesFrom_body vars c).andThen Statement.movesFrom_leftOver).after
    fun _ _ _ h => by cases h

end LineCalculator
