import LineCalculator.Proofs.Comparison
import LineCalculator.Proofs.Heading
import LineCalculator.Expression.Equations

/-!
# Runs that go along with each other

Of two runs that are compared the second goes along with the first, as long as the first stops among
the tokens that are compared. Whatever a rule reads, it reads at its cursor, and it stops no earlier
than that; so every token that decides it is compared. Only the heading of a statement looks one
token ahead.
-/
namespace LineCalculator

namespace Expression

open Comparison

variable {k : Comparison} {c d : Cursor}

/-- A reading that moves on and is compared was compared where it started. -/
theorem le_last_of_moving {reading : Cursor → Outcome Float} (h : Moving reading)
    (hlast : (reading c).cursor.position ≤ k.last) : c.position ≤ k.last :=
  Nat.le_trans (h c).stop.reaches.position_le hlast

theorem matches_number (h : k.Aligned c d) (hkind : c.peek.kind = .number)
    (hlast : (number c).cursor.position ≤ k.last) : k.Matches (number c) (number d) := by
  have hstart := le_last_of_moving moving_number hlast
  have hpeek : d.peek = c.peek := by
    rw [h.peek hstart, Token.rename_of_kind_ne (hkind ▸ by decide)]
  unfold number
  rw [hpeek, h.position]
  cases Number.read? c.peek.text with
  | some value => exact (Matches.value value (h.advance hstart)).after _ _
  | none => exact Matches.formFault h.start_le (h.advance hstart)

theorem matches_variableRead (h : k.Aligned c d) (hkind : c.peek.kind = .name)
    (hlast : (variableRead k.vars c).cursor.position ≤ k.last) :
    k.Matches (variableRead k.vars c) (variableRead k.others d) := by
  have hstart := le_last_of_moving (moving_variableRead k.vars) hlast
  have htext : d.peek.text = k.rename c.peek.text := by
    rw [h.peek hstart, Token.text_rename_of_name hkind]
  unfold variableRead Variables.lookup
  rw [htext, h.position, h.lookup hstart hkind]
  cases k.vars[c.peek.text]? with
  | some value => exact (Matches.value value (h.advance hstart)).after _ _
  | none => exact Matches.valueFault h.start_le h

theorem paired_closeGroup (value : Float) : k.Paired (closeGroup value) (closeGroup value) := by
  intro c d h hlast
  have hstart := le_last_of_moving (moving_closeGroup value) hlast
  unfold closeGroup Cursor.eat?
  rw [h.peek hstart, Token.kind_rename, h.position]
  by_cases hkind : c.peek.kind = .closeParen
  · rw [if_pos hkind, if_pos hkind]
    exact .value value (h.advance hstart).leaveGroup
  · rw [if_neg hkind, if_neg hkind]
    exact .formFault h.start_le h

theorem paired_applyAt (f : Builtin) {position : Nat} (hposition : k.start ≤ position)
    (argument : Float) :
    k.Paired (applyAt f position argument) (applyAt f (k.counterpart position) argument) := by
  intro c d h hlast
  cases f
  simp only [applyAt, Builtin.apply, Builtin.squareRoot]
  by_cases hnegative : argument < 0
  · simp only [if_pos hnegative]
    exact .valueFault hposition h
  · simp only [if_neg hnegative]
    exact (Matches.value _ h).after _ _

variable {inner other : Cursor → Outcome Float}

/-- What groups hold is compared with their closing parentheses. -/
theorem matches_andThen_closeGroup (h : k.Paired inner other) (hcd : k.Aligned c d)
    (hlast : ((inner c).andThen closeGroup).cursor.position ≤ k.last) :
    k.Matches ((inner c).andThen closeGroup) ((other d).andThen closeGroup) :=
  Matches.andThen (h c d hcd) moving_closeGroup paired_closeGroup hlast

theorem paired_group (hmoving : Moving inner) (h : k.Paired inner other) :
    k.Paired (group inner) (group other) := by
  intro c d hcd hlast
  have hstart := le_last_of_moving (moving_group hmoving) hlast
  simp only [group, Cursor.enterGroup, hcd.depth, hcd.position] at hlast ⊢
  by_cases hdepth : c.depth < maxDepth
  · simp only [if_pos hdepth] at hlast ⊢
    exact matches_andThen_closeGroup h (hcd.deeper.advance hstart) hlast
  · simp only [if_neg hdepth]
    exact .formFault hcd.start_le hcd

theorem matches_call (hmoving : Moving inner) (h : k.Paired inner other) {c d : Cursor}
    (hcd : k.Aligned c d) (hkind : c.peek.kind = .function)
    (hlast : (call inner c).cursor.position ≤ k.last) :
    k.Matches (call inner c) (call other d) := by
  have hstart := le_last_of_moving (moving_call hmoving) hlast
  have hpeek : d.peek = c.peek := by
    rw [hcd.peek hstart, Token.rename_of_kind_ne (hkind ▸ by decide)]
  have hnamed := hcd.deeper.advance hstart
  simp only [call, Cursor.enterGroup, hcd.depth, hpeek, hcd.position] at hlast ⊢
  by_cases hdepth : c.depth < maxDepth
  · simp only [if_pos hdepth] at hlast ⊢
    cases hname : Builtin.ofName? c.peek.text with
    | none => exact .formFault hcd.start_le hnamed
    | some f =>
      simp only [hname, Cursor.eat?] at hlast ⊢
      by_cases hopen : c.deeper.advance.peek.kind = .openParen
      · simp only [if_pos hopen] at hlast ⊢
        have hread : (((inner c.deeper.advance.advance).andThen closeGroup).andThen
            (applyAt f c.position)).MovesFrom c.deeper.advance :=
          ((Outcome.MovesFrom.trans (.advance .stay) (hmoving _)).andThen
            moving_closeGroup).andThen (moving_applyAt f c.position)
        have hbehind := Nat.le_trans hread.stop.reaches.position_le hlast
        rw [hnamed.peek hbehind, Token.kind_rename, if_pos hopen]
        exact Matches.andThen (matches_andThen_closeGroup h (hnamed.advance hbehind))
          (moving_applyAt f _) (paired_applyAt f hcd.start_le) hlast
      · simp only [if_neg hopen] at hlast ⊢
        have hbehind : c.deeper.advance.position ≤ k.last := hlast
        rw [hnamed.peek hbehind, Token.kind_rename, if_neg hopen, hnamed.position]
        exact .formFault hnamed.start_le hnamed
  · simp only [if_neg hdepth]
    exact .formFault hcd.start_le hcd

theorem paired_factorWith (hmoving : Moving inner) (h : k.Paired inner other) :
    k.Paired (factorWith k.vars inner) (factorWith k.others other) := by
  intro c d hcd hlast
  have hstart := le_last_of_moving (moving_factorWith k.vars hmoving) hlast
  have hpeek := hcd.peek hstart
  have hsame : d.peek.kind = c.peek.kind := by rw [hpeek, Token.kind_rename]
  simp only [factorWith, Outcome.cursor_after, hsame] at hlast ⊢
  refine Matches.after ?_ _ _
  cases hkind : c.peek.kind with
  | number =>
    simp only [hkind] at hlast
    exact matches_number hcd hkind hlast
  | name =>
    simp only [hkind] at hlast
    exact matches_variableRead hcd hkind hlast
  | openParen =>
    simp only [hkind] at hlast
    exact paired_group hmoving h c d hcd hlast
  | function =>
    simp only [hkind] at hlast
    exact matches_call hmoving h hcd hkind hlast
  | _ =>
    rw [hpeek, Token.rename_of_kind_ne (hkind ▸ by decide), hcd.position]
    exact .formFault hcd.start_le hcd

variable {operand rival : Cursor → Outcome Float}

/-- Chains of paired operands under one bound. -/
theorem paired_chainFrom (tier : Tier) (hoperand : Moving operand) (h : k.Paired operand rival)
    (bound : List Token) (left : Float) :
    k.Paired (chainFrom tier operand bound left) (chainFrom tier rival bound left) := by
  induction bound generalizing left with
  | nil => exact fun c d hcd _ => .value left hcd
  | cons t bound ih =>
    intro c d hcd hlast
    have hstart := le_last_of_moving (moving_chainFrom tier hoperand _ left) hlast
    have hoperator : tier.operator? d.peek = tier.operator? c.peek := by
      rw [Tier.operator?, hcd.peek hstart, Token.operator?_rename, Tier.operator?]
    simp only [chainFrom, hoperator] at hlast ⊢
    cases hop : tier.operator? c.peek with
    | none => exact .value left hcd
    | some op =>
      simp only [hop] at hlast
      refine Matches.andThen (h _ _ (hcd.advance hstart)) ?_ ?_ hlast
      · exact fun right next => (moving_chainFrom tier hoperand _ _ next).after
          fun _ _ _ h => by cases h
      · intro right next opposite hnext hbehind
        exact (ih _ next opposite hnext hbehind).after _ _

/-- The bound of a chain is the tokens ahead, which the lists need not share. -/
theorem paired_chain (tier : Tier) (hmoving : Moving operand) (hoperand : Progressive operand)
    (hrival : Progressive rival) (h : k.Paired operand rival) :
    k.Paired (chain tier operand) (chain tier rival) := by
  intro c d hcd hlast
  refine Matches.andThen (h c d hcd) (fun left next => ?_) (fun left next opposite hnext => ?_)
    hlast
  · exact moving_chainFrom tier hmoving _ left next
  · have hbound : chainFrom tier operand next.ahead left next =
        chainFrom tier operand (next.ahead ++ opposite.ahead) left next :=
      chainFrom_bound hoperand left (Nat.le_refl _) (by simp)
    have hopposite : chainFrom tier rival opposite.ahead left opposite =
        chainFrom tier rival (next.ahead ++ opposite.ahead) left opposite :=
      chainFrom_bound hrival left (Nat.le_refl _) (by simp)
    rw [hbound, hopposite]
    exact paired_chainFrom tier hmoving h _ left next opposite hnext

theorem paired_termWith (hmoving : Moving inner) (hinner : Progressive inner)
    (hother : Progressive other) (h : k.Paired inner other) :
    k.Paired (termWith k.vars inner) (termWith k.others other) := by
  intro c d hcd hlast
  have hchain := paired_chain .product (moving_factorWith k.vars hmoving)
    (progressive_factorWith k.vars hinner) (progressive_factorWith k.others hother)
    (paired_factorWith hmoving h)
  exact (hchain c d hcd hlast).after _ _

theorem paired_expressionWith (hmoving : Moving inner) (hinner : Progressive inner)
    (hother : Progressive other) (h : k.Paired inner other) :
    k.Paired (expressionWith k.vars inner) (expressionWith k.others other) := by
  intro c d hcd hlast
  have hchain := paired_chain .sum (moving_termWith k.vars hmoving)
    (progressive_termWith k.vars hinner) (progressive_termWith k.others hother)
    (paired_termWith hmoving hinner hother h)
  exact (hchain c d hcd hlast).after _ _

theorem paired_groupBody (k : Comparison) (levels : Nat) :
    k.Paired (groupBody k.vars levels) (groupBody k.others levels) := by
  induction levels with
  | zero =>
    intro c d hcd _
    simp only [groupBody, hcd.position]
    exact .formFault hcd.start_le hcd
  | succ levels ih =>
    exact paired_expressionWith (moving_groupBody k.vars levels)
      (progressive_groupBody k.vars levels) (progressive_groupBody k.others levels) ih

/-- Expressions go along with each other. -/
theorem paired_expression (k : Comparison) :
    k.Paired (expression k.vars) (expression k.others) := by
  intro c d hcd hlast
  have hpaired := paired_groupBody k (levelsLeft c + 1)
  have hlevels : levelsLeft d = levelsLeft c := levelsLeft_congr hcd.depth
  unfold expression
  rw [hlevels]
  exact hpaired c d hcd hlast

end Expression

namespace Statement

variable {k : Comparison} {c d : Cursor}

/-- The heading looks at the token behind the one at the cursor, unless that ends the line. -/
theorem aligned_heading (h : k.Aligned c d) (hlast : c.position ≤ k.last)
    (hnext : c.atEnd = false → c.position + 1 ≤ k.last) :
    (heading d).1 = (heading c).1.rename k.rename ∧ k.Aligned (heading c).2 (heading d).2 := by
  have hpeek := h.peek hlast
  have hkind : d.peek.kind = c.peek.kind := by rw [hpeek, Token.kind_rename]
  cases hend : c.atEnd with
  | true =>
    have hstops : c.peek.kind = .endOfLine := by simpa [Cursor.atEnd] using hend
    have hbare : heading c = (.expression, c) :=
      heading_of_bare (by simp [isAssignment, hstops]) (by simp [hstops])
    have hother : heading d = (.expression, d) :=
      heading_of_bare (by simp [isAssignment, hkind, hstops]) (by simp [hkind, hstops])
    rw [hbare, hother]
    exact ⟨rfl, h⟩
  | false =>
    have hotherEnd := (h.atEnd hlast).trans hend
    have hbehind : d.peekNext.kind = c.peekNext.kind := by
      rw [Cursor.peekNext_eq_tokenAt hotherEnd, Cursor.peekNext_eq_tokenAt hend,
        h.token 1 (hnext hend), Token.kind_rename]
    have hsame : isAssignment d = isAssignment c := by
      rw [isAssignment, isAssignment, hkind, hbehind]
    have hadvance := h.advance hlast
    simp only [heading, hsame, Cursor.eat?, hkind]
    by_cases hassignment : isAssignment c = true
    · have hname : c.peek.kind = .name := by
        simpa using (Bool.and_eq_true_iff.mp hassignment).1
      have hposition : c.advance.position = c.position + 1 := by
        rw [Cursor.advance_of_not_atEnd hend]
      simp only [if_pos hassignment, hpeek, Token.text_rename_of_name hname]
      exact ⟨rfl, hadvance.advance (hposition ▸ hnext hend)⟩
    · simp only [if_neg hassignment]
      by_cases hprint : c.peek.kind = .print
      · simp only [if_pos hprint]
        exact ⟨rfl, hadvance⟩
      · simp only [if_neg hprint]
        exact ⟨rfl, h⟩

end Statement

/-- Statements go along with each other, if the heading of the first is compared and it stops among
the tokens that are compared. -/
theorem statement_of_aligned {k : Comparison} {c d : Cursor} (h : k.Aligned c d)
    (hnext : c.atEnd = false → c.position + 1 ≤ k.last)
    (hlast : (statement k.vars c).cursor.position ≤ k.last) :
    (∀ e, (statement k.vars c).result = .ok e →
      (statement k.others d).result = .ok (e.rename k.rename)) ∧
    (∀ fault, (statement k.vars c).result = .error fault →
      k.start ≤ fault.position ∧
      (statement k.others d).result = .error (fault.move k.rename k.counterpart)) ∧
    k.Aligned (statement k.vars c).cursor (statement k.others d).cursor := by
  have hstart := Nat.le_trans (movesFrom_statement k.vars c).stop.reaches.position_le hlast
  obtain ⟨hform, hheading⟩ := Statement.aligned_heading h hstart hnext
  rw [Statement.cursor_eq_heading] at hlast
  have hmatches := Expression.paired_expression k _ _ hheading hlast
  refine ⟨fun e he => ?_, fun fault hfault => ?_, ?_⟩
  · obtain ⟨hhead, hvalue⟩ := Statement.result_eq_ok_iff.mp he
    refine Statement.result_eq_ok_iff.mpr ⟨?_, ?_⟩
    · rw [Evaluation.rename, hform, hhead]
    · rw [hmatches.result, hvalue]
      rfl
  · have hexpression := Statement.result_eq_error_iff.mp hfault
    refine ⟨hmatches.start_le fault hexpression, Statement.result_eq_error_iff.mpr ?_⟩
    rw [hmatches.result, hexpression]
    rfl
  · rw [Statement.cursor_eq_heading, Statement.cursor_eq_heading]
    exact hmatches.cursor

end LineCalculator
